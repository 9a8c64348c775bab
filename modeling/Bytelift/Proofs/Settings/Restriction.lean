import Bytelift.Proofs.Cache.Material
import Bytelift.Proofs.Lift.Verified

/-!
# Narrower settings

Settings can accept fewer opcodes and fewer nested cleanup regions. A lifting that is not refused under narrow settings takes the same
steps under wider ones. The other way round, a lifting under settings that accept all opcodes takes the same steps under narrower ones
as long as the blocks that it comes to (`Lowers`) hold accepted opcodes only: blocks that it never comes to do not matter.

Results:
* `liftMethod_restricted`: **a list of accepted opcodes only refuses**, and it does so if a block is lifted that holds another opcode.
-/

namespace Bytelift

open Lift

/-- An opcode is accepted: every opcode is, or the opcode is one of those listed. -/
def Settings.Allows (s : Settings) (op : Opcode) : Prop :=
  s.allowed = [] ∨ ∃ name ∈ s.allowed, Opcode.ofMnemonic? name = some op

/-- The settings without a list of accepted opcodes. -/
def Settings.acceptAll (s : Settings) : Settings := { s with allowed := [] }

theorem Settings.allows_acceptAll (s : Settings) (op : Opcode) : s.acceptAll.Allows op := .inl rfl

theorem Settings.allows_iff {s : Settings} {op : Opcode} : s.Allows op ↔ s.allowSet.all (·.contains op) = true := by
  unfold Allows allowSet
  split
  · rename_i hnil
    simp [List.isEmpty_iff.1 hnil]
  · rename_i hne
    rw [or_iff_right (mt List.isEmpty_iff.2 hne)]
    simp

namespace Lift

/-- In one of its rounds a lifting comes to a bytecode block and lifts it. -/
inductive Context.Lowers (cx : Context) : (rounds n : Nat) → State → CodeBlock → Prop
  | now {rounds n t bci e B} : t.entries[n]? = some (bci, e) → cx.partition.blockAt? bci = some B → Lowers cx (rounds + 1) n t B
  | later {rounds n t bci e t' B} : t.entries[n]? = some (bci, e) → (cx.liftAt bci e).run t = (.ok (), t') →
      Lowers cx rounds (n + 1) t' B → Lowers cx (rounds + 1) n t B
  | attach {rounds n t site sites t' B} : t.entries[n]? = none → t.sites = site :: sites →
      (t.sites.forM cx.attachPad).run { t with sites := [] } = (.ok (), t') → Lowers cx rounds n t' B → Lowers cx (rounds + 1) n t B

/-- The lifting of a method comes to a bytecode block and lifts it. -/
def Lowers (m : Method) (s : Settings) (B : CodeBlock) : Prop :=
  ∃ cx t, context m s = .ok cx ∧ cx.openModule.run { builder := .new m.key } = (.ok (), t) ∧
    cx.Lowers (2 * cx.partition.blocks.length + 3) 0 t B

/-- The context under the limits and logs of other settings. -/
def Context.under (cx : Context) (s : Settings) : Context :=
  { cx with allow := s.allowSet, nestingLimit := s.nestingLimit, debugLogs := s.debugLogs }

section Contexts

variable {m : Method} {s s' : Settings} {cx : Context}

theorem context_under (hcx : context m s = .ok cx) (helide : s.elideGuards = s'.elideGuards) : context m s' = .ok (cx.under s') := by
  unfold context at hcx ⊢
  rw [← helide]
  cases htype : MethodType.parse m.desc with
  | error e => simp [htype] at hcx
  | ok type =>
    cases hpartition : Partition.ofMethod m with
    | error e => simp [htype, hpartition] at hcx
    | ok partition =>
      simp only [htype, hpartition, Except.ok.injEq] at hcx
      rw [← hcx]
      rfl

theorem context_limits (hcx : context m s = .ok cx) : cx.allow = s.allowSet ∧ cx.nestingLimit = s.nestingLimit := by
  rw [← Except.ok.inj ((context_under hcx rfl).symm.trans hcx)]
  exact ⟨rfl, rfl⟩

theorem admits_under (hcx : context m s = .ok cx) (hallow : ∀ op, s.Allows op → s'.Allows op)
    (hnesting : s.nestingLimit ≤ s'.nestingLimit) : cx.Admits (cx.under s') := by
  obtain ⟨ha, hn⟩ := context_limits hcx
  refine ⟨fun op hop => Settings.allows_iff.1 (hallow op (Settings.allows_iff.2 ?_)), hn.trans_le hnesting⟩
  rwa [← ha]

end Contexts

section Rounds

variable {cx v : Context} {rounds n : Nat} {t t' u : State} {B : CodeBlock}

/-- The instructions of a block that was lifted are accepted. -/
theorem allowed_of_liftInstructions {insts : List Instruction} (h : (cx.liftInstructions insts).run t = (.ok (), t')) :
    ∀ i ∈ insts, cx.allow.all (·.contains i.op) = true := by
  induction insts generalizing t with
  | nil => simp
  | cons i insts ih =>
    obtain ⟨_, t1, hi, hrest⟩ := ok_of_bind h
    obtain ⟨_, t2, -, hi⟩ := ok_of_bind hi
    obtain ⟨_, t3, hrefuse, -⟩ := ok_of_bind hi
    refine List.forall_mem_cons.2 ⟨?_, ih hrest⟩
    unfold refuseIf at hrefuse
    split at hrefuse
    · cases hrefuse
    · rename_i hno
      simpa using hno

theorem allowed_of_liftAt {bci : Int} {e : Entry} (h : (cx.liftAt bci e).run t = (.ok (), t'))
    (hB : cx.partition.blockAt? bci = some B) : ∀ i ∈ B.insts, cx.allow.all (·.contains i.op) = true := by
  obtain ⟨B', t1, hrequire, h⟩ := ok_of_bind h
  obtain ⟨hB', -⟩ := ok_of_require hrequire
  obtain rfl := Option.mem_unique hB hB'
  obtain ⟨_, t2, -, h⟩ := ok_of_bind h
  obtain ⟨_, t3, -, h⟩ := ok_of_bind h
  obtain ⟨_, t4, hinsts, -⟩ := ok_of_bind h
  exact allowed_of_liftInstructions hinsts

/-- If the rounds are over without a refusal, what they lift under wider limits is accepted under the narrower ones. -/
theorem Context.Lowers.allowed (hl : (cx.vary v).Lowers rounds n u B) (hadmits : cx.Admits v) (r : List Record) (hu : u = t.record r)
    (h : (cx.liftAll rounds n).run t = (.ok (), t')) : ∀ i ∈ B.insts, cx.allow.all (·.contains i.op) = true := by
  induction hl generalizing t r with
  | now hentry hB =>
    subst hu
    rw [run_liftAll, show t.entries[_]? = _ from hentry] at h
    obtain ⟨_, t1, hat, -⟩ := ok_of_bind h
    exact allowed_of_liftAt hat hB
  | later hentry hat' _ ih =>
    subst hu
    rw [run_liftAll, show t.entries[_]? = _ from hentry] at h
    obtain ⟨_, t1, hat, hrest⟩ := ok_of_bind h
    obtain ⟨r', htwin⟩ := twin_liftAt (F := True) hadmits t r
    rw [hat] at htwin
    exact ih r' (Prod.mk.inj (hat'.symm.trans htwin.2)).2 hrest
  | attach hentry hsites hattach' _ ih =>
    subst hu
    rw [run_liftAll, show t.entries[_]? = _ from hentry, show t.sites = _ from hsites] at h
    obtain ⟨_, t1, hset, h⟩ := ok_of_bind h
    obtain ⟨_, t2, hattach, hrest⟩ := ok_of_bind h
    cases hset
    obtain ⟨r', htwin⟩ := twin_forM (F := True) _ (fun site _ => twin_attachPad hadmits.nesting) { t with sites := [] } r
    rw [hattach] at htwin
    rw [show t.sites = _ from hsites] at hattach'
    exact ih r' (Prod.mk.inj (hattach'.symm.trans htwin.2)).2 hrest

/-- **The rounds are the same under narrower limits** if these accept what is lifted. -/
theorem Context.twinAt_liftAll (hlimit : cx.nestingLimit ≤ v.nestingLimit)
    (hallow : ∀ B, cx.Lowers rounds n t B → ∀ i ∈ B.insts, v.allow.all (·.contains i.op) = true) :
    TwinAt cx v True t (cx.liftAll rounds n) ((cx.vary v).liftAll rounds n) := by
  induction rounds generalizing n t with
  | zero => exact Twin.pure () t
  | succ rounds ih =>
    intro r
    rw [run_liftAll, run_liftAll]
    cases hentry : t.entries[n]? with
    | some x =>
      obtain ⟨bci, e⟩ := x
      have hat : TwinAt cx v True t (cx.liftAt bci e) ((cx.vary v).liftAt bci e) := by
        refine TwinAt.bind (twin_require _ t) fun B t1 hrequire => ?_
        obtain ⟨hB, rfl⟩ := ok_of_require hrequire
        exact twin_liftBlock hlimit (fun i hi _ => hallow B (.now hentry hB) i hi) _
      exact hat.bind (fun _ t1 h1 => ih fun B hB => hallow B (.later hentry h1 hB)) r
    | none =>
      cases hs : t.sites with
      | nil => exact ⟨r, .refl, rfl⟩
      | cons site sites =>
        refine TwinAt.bind (twin_modify (fun _ => .sites (.inr trivial)) (fun _ _ => rfl) t) (fun _ t1 h1 => ?_) r
        cases h1
        refine TwinAt.bind (twin_forM _ (fun _ _ => twin_attachPad hlimit) _) fun _ t2 h2 => ?_
        exact ih fun B hB => hallow B (.attach hentry hs (hs ▸ h2) hB)

end Rounds

end Lift

/-! ## Methods -/

section Methods

variable {m : Method} {s s' : Settings} {mod : Ir.Module}

theorem liftMethod_ok_iff : liftMethod m s = .ok mod ↔
    ∃ cx t, context m s = .ok cx ∧ cx.liftBody.run { builder := .new m.key } = (.ok mod, t) := by
  rw [liftMethod_eq]
  cases hcx : context m s with
  | error e => simp
  | ok cx =>
    dsimp only
    rcases hrun : cx.liftBody.run { builder := .new m.key } with ⟨e | mod', t⟩
    all_goals refine ⟨fun h => ?_, fun ⟨cx', t', hcx', h⟩ => ?_⟩
    · cases h
    · cases hcx'
      cases hrun.symm.trans h
    · cases h
      exact ⟨cx, t, rfl, hrun⟩
    · cases hcx'
      cases hrun.symm.trans h
      rfl

/-- **Wider settings give the same module.** -/
theorem liftMethod_widen (h : liftMethod m s = .ok mod) (helide : s.elideGuards = s'.elideGuards)
    (hallow : ∀ op, s.Allows op → s'.Allows op) (hnesting : s.nestingLimit ≤ s'.nestingLimit) : liftMethod m s' = .ok mod := by
  obtain ⟨cx, t, hcx, hrun⟩ := liftMethod_ok_iff.1 h
  obtain ⟨r, htwin⟩ := Context.twin_liftBody (admits_under hcx hallow hnesting) { builder := .new m.key } []
  rw [hrun] at htwin
  exact liftMethod_ok_iff.2 ⟨_, _, context_under hcx helide, htwin.2⟩

/-- What is lifted if all opcodes are accepted is accepted if the method is not refused. -/
theorem Lift.Lowers.allowed {B : CodeBlock} (hl : Lowers m s.acceptAll B) (h : liftMethod m s = .ok mod) :
    ∀ i ∈ B.insts, s.Allows i.op := by
  obtain ⟨cx, t, hcx, hrun⟩ := liftMethod_ok_iff.1 h
  obtain ⟨cx', t', hcx', hopen', hlowers⟩ := hl
  have hwide : context m s.acceptAll = .ok (cx.under s.acceptAll) := context_under hcx rfl
  obtain rfl := Except.ok.inj (hwide.symm.trans hcx')
  have hadmits : cx.Admits (cx.under s.acceptAll) :=
    admits_under hcx (fun op _ => s.allows_acceptAll op) (Nat.le_refl s.nestingLimit)
  obtain ⟨_, t1, hbuild, -⟩ := ok_of_bind hrun
  obtain ⟨_, t2, hopen, hbuild⟩ := ok_of_bind hbuild
  obtain ⟨_, t3, hall, -⟩ := ok_of_bind hbuild
  obtain ⟨r, htwin⟩ := Context.twin_openModule (F := True) (v := cx.under s.acceptAll)
    { builder := .new m.key } []
  rw [hopen] at htwin
  have hlowers : (cx.vary (cx.under s.acceptAll)).Lowers (2 * cx.partition.blocks.length + 3) 0 t' B := hlowers
  have hallowed := hlowers.allowed hadmits r (Prod.mk.inj (hopen'.symm.trans htwin.2)).2 hall
  intro i hi
  rw [Settings.allows_iff, ← (context_limits hcx).1]
  exact hallowed i hi

/-- A method that can be lifted is not refused if what is lifted is accepted. -/
theorem liftMethod_narrow (h : liftMethod m s.acceptAll = .ok mod)
    (hallow : ∀ B, Lowers m s.acceptAll B → ∀ i ∈ B.insts, s.Allows i.op) : liftMethod m s = .ok mod := by
  obtain ⟨cx, t, hcx, hrun⟩ := liftMethod_ok_iff.1 h
  have hlimit : cx.nestingLimit ≤ (cx.under s).nestingLimit := (context_limits hcx).2.le
  have hbuild : TwinAt cx (cx.under s) True { builder := .new m.key } cx.build (cx.vary (cx.under s)).build := by
    refine TwinAt.bind (Context.twin_openModule _) fun _ t1 hopen => ?_
    refine TwinAt.bind (Context.twinAt_liftAll hlimit fun B hB i hi => ?_) fun _ t2 _ => Context.twin_closeModule t2
    exact Settings.allows_iff.1 (hallow B ⟨cx, t1, hcx, hopen, hB⟩ i hi)
  obtain ⟨r, htwin⟩ := Context.twinAt_liftBody hbuild []
  rw [hrun] at htwin
  exact liftMethod_ok_iff.2 ⟨_, _, context_under hcx rfl, htwin.2⟩

/-- **Narrower settings only refuse.** Settings that accept no less give the same module, and a list of accepted opcodes refuses a method
exactly if the lifting without the list comes to a block with an opcode that is not accepted. -/
theorem liftMethod_restricted (m : Method) (s : Settings) (mod : Ir.Module) :
    (∀ s' : Settings, s.elideGuards = s'.elideGuards → (∀ op, s.Allows op → s'.Allows op) → s.nestingLimit ≤ s'.nestingLimit →
      liftMethod m s = .ok mod → liftMethod m s' = .ok mod) ∧
    (liftMethod m s = .ok mod ↔ liftMethod m s.acceptAll = .ok mod ∧
      ∀ B, Lift.Lowers m s.acceptAll B → ∀ i ∈ B.insts, s.Allows i.op) := by
  refine ⟨fun s' he ha hn h => liftMethod_widen h he ha hn, fun h => ⟨?_, fun B hB => hB.allowed h⟩, fun ⟨h, hallow⟩ => liftMethod_narrow h hallow⟩
  exact liftMethod_widen h rfl (fun op _ => s.allows_acceptAll op) (Nat.le_refl s.nestingLimit)

end Methods

/-- A method that returns a constant, with a block behind that control never comes to. -/
def shadedMethod : Method :=
  { owner := "T", name := "f", desc := "()I", isStatic := true, maxStack := 1, code := [0x04, 0xac, 0x05, 0xac] }

/-- Opcodes in code that control never comes to need not be accepted. -/
theorem shadedMethod_lifts : ∃ (s s' : Settings) (mod : Ir.Module) (p : Partition) (B : CodeBlock) (i : Instruction),
    s.allowed ≠ [] ∧ s.nestingLimit < s'.nestingLimit ∧ liftMethod shadedMethod s = .ok mod ∧ liftMethod shadedMethod s' = .ok mod ∧
    Partition.ofMethod shadedMethod = .ok p ∧ B ∈ p.blocks ∧ i ∈ B.insts ∧ ¬ s.Allows i.op ∧
    ¬ Lift.Lowers shadedMethod s.acceptAll B := by
  obtain ⟨s, hs⟩ : ∃ s : Settings, s = { allowed := ["iconst_1", "ireturn"], nesting := 2 } := ⟨_, rfl⟩
  obtain ⟨s', hs'⟩ : ∃ s' : Settings, s' = { allowed := ["ireturn", "iconst_1"] } := ⟨_, rfl⟩
  have hok : (liftMethod shadedMethod s).toOption.any fun _ => true := by
    rw [hs]
    decide +kernel
  have hblocks : (Partition.ofMethod shadedMethod).toOption.any fun p => p.blocks.any fun B => B.insts.any fun i =>
      !s.allowSet.all (·.contains i.op) := by
    rw [hs]
    decide +kernel
  have hallow (op : Opcode) (h : s.Allows op) : s'.Allows op := by
    subst hs hs'
    refine h.imp nofun fun ⟨name, hmem, hname⟩ => ⟨name, ?_, hname⟩
    simpa [or_comm] using hmem
  obtain ⟨mod, hmod, -⟩ := exists_ok_of_any hok
  obtain ⟨p, hp, hblocks⟩ := exists_ok_of_any hblocks
  obtain ⟨B, hB, hi⟩ := List.any_eq_true.1 hblocks
  obtain ⟨i, hi, hno⟩ := List.any_eq_true.1 hi
  have hnot : ¬ s.Allows i.op := by
    rw [Settings.allows_iff]
    simpa using hno
  have hwide := (liftMethod_restricted shadedMethod s mod).1 s' (by rw [hs, hs']) hallow (by rw [hs, hs']; decide) hmod
  refine ⟨s, s', mod, p, B, i, by simp [hs], by rw [hs, hs']; decide, hmod, hwide, hp, hB, hi, hnot, fun hl => hnot ?_⟩
  exact ((liftMethod_restricted shadedMethod s mod).2.1 hmod).2 B hl i hi

/-! ## Settings with one fingerprint -/

/-- **Settings with one fingerprint lift alike**, be it to a module or to a refusal. The opcodes in the fingerprint tell
which ones are accepted, and no list from none. The number of workers, the size of a cache and the logs change
neither the fingerprint nor what a method is lifted to. -/
theorem liftMethod_fingerprint {s s' : Settings} (hs : s.validate = .ok ()) (hs' : s'.validate = .ok ()) :
    (s.fingerprint = s'.fingerprint → ∀ m, liftMethod m s = liftMethod m s') ∧
    (Text.join "," (s.allowed.mergeSort Text.le) = Text.join "," (s'.allowed.mergeSort Text.le) →
      s.allowed.Perm s'.allowed ∧ (s.allowed = [] ↔ s'.allowed = []) ∧ ∀ op, s.Allows op ↔ s'.Allows op) ∧
    ∀ (t : Settings) (workers cacheSize : Int) (debugLogs : Bool) (m : Method),
      let t' := { t with workers, cacheSize, debugLogs }
      t'.fingerprint = t.fingerprint ∧ liftMethod m t' = liftMethod m t := by
  refine ⟨fun h m => ?_, fun h => ?_, fun t workers cacheSize debugLogs m => ⟨rfl, ?_⟩⟩
  · obtain ⟨hdump, helide, hnesting, hallowed⟩ := Settings.fingerprint_spec hs hs' h
    exact liftMethod_agree ⟨hdump, helide, hnesting, hallowed⟩ m.maxStack
  · have hallowed := Settings.allowed_perm hs hs' h
    have hnil : s.allowed = [] ↔ s'.allowed = [] := by
      rw [← List.length_eq_zero_iff, hallowed.length_eq, List.length_eq_zero_iff]
    refine ⟨hallowed, hnil, fun op => or_congr hnil ?_⟩
    simp only [hallowed.mem_iff]
  · have hagree : Settings.Agree { t with workers, cacheSize, debugLogs } t := ⟨rfl, rfl, rfl, .refl _⟩
    exact liftMethod_agree hagree m.maxStack

/-- The order of the opcodes and the number of workers do not matter. -/
theorem constantReturn_fingerprint : ∃ s s' : Settings, s.validate = .ok () ∧ s'.validate = .ok () ∧ s ≠ s' ∧
    s.fingerprint = s'.fingerprint ∧ (liftMethod (constantReturn (.int 5) 1) s).isOk = true ∧
    liftMethod (constantReturn (.int 5) 1) s = liftMethod (constantReturn (.int 5) 1) s' := by
  let s : Settings := { allowed := ["ldc", "ireturn"] }
  let s' : Settings := { allowed := ["ireturn", "ldc"], workers := 4 }
  have hs : s.validate = .ok () := by decide +kernel
  have hs' : s'.validate = .ok () := by decide +kernel
  have hagree : s.Agree s' := ⟨rfl, rfl, rfl, .swap _ _ _⟩
  exact ⟨s, s', hs, hs', by decide +kernel, hagree.fingerprint, by decide +kernel, (liftMethod_fingerprint hs hs').1 hagree.fingerprint _⟩

end Bytelift
