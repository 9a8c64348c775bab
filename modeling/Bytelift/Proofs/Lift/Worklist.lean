import Bytelift.Proofs.Ir.Verification
import Bytelift.Proofs.Lift.Sites

/-!
# The work list of a lifting

A lifting takes turns: it lifts scheduled blocks, which schedules other blocks and finds sites that may throw, and it gives the
sites their landingpads, which schedules handlers. Control goes only to blocks that are scheduled, so that what is never lifted
is never reached.

Results:
* `liftMethod_worklist`: **the work list is finite and closed.**
-/

namespace Bytelift

namespace Lift

open Ir List

variable {cx : Context} {s : State} {b x : BlockId} {k : Block} {t : Terminator}

theorem Steers.edge {L : BlockId → Prop} (h : Steers L t) (hx : x ∈ t.edges) : L x := by
  cases t with
  | goto y | fallthrough y => exact mem_singleton.1 hx ▸ h
  | condBr v y z => exact (mem_pair.1 hx).elim (· ▸ h.1) (· ▸ h.2)
  | none | ret v | resume v => cases hx
  | _ => exact h.elim

theorem Passes.edge {y : BlockId} (h : Passes t y) (hx : x ∈ t.edges) : x = y ∨ x = t.unwind := by
  rcases h with rfl | rfl | ⟨u, rfl⟩
  · exact .inl (mem_singleton.1 hx)
  · exact .inl (mem_singleton.1 hx)
  · exact mem_pair.1 hx

/-- **Control goes only to blocks that were scheduled.** -/
theorem Finished.led (hfin : Finished cx s) (hk : s.mod.block? b = some k) (hx : x ∈ k.term.edges) : Led cx s x := by
  obtain ⟨D, hg, -⟩ := hfin.good
  have hnone : Led cx s noBlock := fun B hB heq => by
    obtain ⟨k', hk', -⟩ := hg.toGoodModule.blockOf hB
    rw [← heq] at hk'
    cases hk'
  -- a fault goes to a landingpad
  have hunw : Led cx s k.term.unwind := by
    by_cases hne : k.term.unwind = noBlock
    · rwa [hne]
    · obtain ⟨c, hf⟩ := (hg.block hk).caught hne
      obtain ⟨k', hk', hpad⟩ := (hfin.pad_of_fault hk hf).unwindDest
      exact hg.toGoodModule.led hk' (by rw [hpad]; nofun)
  have hloop {y : BlockId} (h : LoopBlock s y) : Led cx s y := by
    obtain ⟨k', hk', hkind⟩ := h
    exact hg.toGoodModule.led hk' (by rw [hkind]; nofun)
  cases hp : holdsCode k.kind with
  | false => exact (((hg.leads hk).2 hp).edge hx).resolve_left nofun
  | true =>
    have hcode := (hg.block hk).code hp (hfin.complete.term hk)
    generalize hterm : k.term = t at hx hunw hcode
    cases hcode with
    | split h =>
      obtain ⟨-, k', hk', hkind⟩ := h
      exact (mem_pair.1 hx).elim (· ▸ hg.toGoodModule.led hk' (by rw [hkind]; nofun)) (· ▸ hunw)
    | enter h => exact mem_singleton.1 hx ▸ hloop h
    | loop h h' => exact (mem_pair.1 hx).elim (· ▸ hloop h) (· ▸ hloop h')
    | idle => cases hx
    | tail _ h =>
      cases h with
      | jump hp _ h | fall hp _ h | leave hp _ _ h => exact (hp.edge hx).elim (· ▸ (hg.aim h).led) (· ▸ hunw)
      | branch _ h h' => exact (mem_pair.1 hx).elim (· ▸ (hg.aim h).led) (· ▸ (hg.aim h').led)
      | switch _ _ hcs hd =>
        rcases mem_append.1 hx with hx | hx
        · obtain ⟨c, hc, rfl⟩ := mem_map.1 hx
          obtain ⟨_, -, -, hroute⟩ := exists_of_mem_right hcs hc
          exact (hg.aim hroute).led
        · exact mem_singleton.1 hx ▸ (hg.aim hd).led
      | ret => cases hx
      | throw => exact mem_singleton.1 hx ▸ hunw
      | finish =>
        rcases mem_append.1 hx with hx | hx
        · -- the switch has the cases of its region
          obtain ⟨c, hc, rfl⟩ := mem_map.1 hx
          obtain ⟨r, hr, he⟩ := (hg.ending hk hterm).resolve_left nofun
          obtain ⟨k', hk', hcases⟩ := hfin.ended r hr _ he
          obtain rfl := Option.mem_unique hk hk'
          obtain ⟨-, -, rfl⟩ := Terminator.switch.inj (hterm.symm.trans hcases)
          exact (hg.exits r hr _ (target_of_mem_cases hc)).led
        · exact mem_singleton.1 hx ▸ hnone

/-- The edges of a lifted module lead to what was scheduled. -/
theorem liftMethod_led {m : Method} {settings : Settings} {mod : Module} (h : liftMethod m settings = .ok mod)
    (hcx : context m settings = .ok cx) :
    ∃ s, cx.build.run { builder := .new m.key } = (.ok (), s) ∧ Finished cx (s.link mod) ∧
      ∀ {b k}, mod.block? b = some k → (∀ p ∈ k.preds, Led cx s b) ∧ ∀ x ∈ k.succs, Led cx s x := by
  obtain ⟨s, hrun, hfreeze, hfin, hl, -⟩ := liftMethod_ends h hcx
  obtain ⟨m', hconnect, -, rfl⟩ := Builder.freeze_ok hfreeze
  refine ⟨s, hrun, hfin.link hl, fun {b k} hk => ?_⟩
  obtain ⟨-, hpreds, hsuccs⟩ := Module.connect_spec (fun hk => (hfin.sound.block hk).id) hconnect hk
  refine ⟨fun p hp => ?_, fun x hx => (hfin.link hl).led hk (hsuccs x hx)⟩
  obtain ⟨kp, hkp, hedge⟩ := (hpreds p).1 hp
  exact (hfin.link hl).led hkp hedge

end Lift

open Ir Lift

/-- A block leads to another one along its successors. -/
def Ir.Module.Leads (mod : Module) (b x : BlockId) : Prop := ∃ k, mod.block? b = some k ∧ x ∈ k.succs

/-- **The work list is finite and closed.** The turns come to an end whether the method is refused or not; no block is scheduled
twice, every site that is found gets its landingpad once, and there is one landingpad for a bci. In the module that they end with,
no site is left, and the blocks that were not lifted have no predecessors and are not reached from the entry. -/
theorem liftMethod_worklist {m : Method} {settings : Settings} {cx : Context} {s : State}
    (hcx : context m settings = .ok cx) (hopen : cx.openModule.run { builder := .new m.key } = (.ok (), s)) :
    ∃ turns n s', Works cx 0 s turns n s' ∧ Ends cx n s' ((cx.liftAll (2 * cx.partition.blocks.length + 3) 0).run s) ∧
      (s'.entries.map (·.1)).Nodup ∧ (s'.entries.map (·.1)).take n = turns.flatMap Turn.lifted ∧
      turns.flatMap Turn.found = turns.flatMap Turn.attached ++ s'.sites ∧ (s'.pads.map (·.1)).Nodup ∧
      ∀ mod, liftMethod m settings = .ok mod →
        s'.sites = [] ∧ (∀ c p p', mod.IsPad c p → mod.IsPad c p' → p = p') ∧
        (∀ b k, mod.block? b = some k → k.term = .unreachable → k.preds = []) ∧
        (∀ B ∈ cx.partition.blocks, ∀ k, mod.block? (cx.blockOf B.start) = some k → k.preds ≠ [] →
          (B.start : Int) ∈ turns.flatMap Turn.lifted) ∧
        ∀ b, Relation.ReflTransGen mod.Leads mod.entry b → (∀ k, mod.block? b = some k → k.term ≠ .unreachable) ∧
          ∀ B ∈ cx.partition.blocks, b = cx.blockOf B.start → (B.start : Int) ∈ turns.flatMap Turn.lifted := by
  obtain ⟨rfl, ht, -⟩ := context_ok hcx
  obtain ⟨hround, hsites, hstart, hent⟩ := (wp_openModule ht).of_run hopen
  have hfuel : 2 * (cx.partition.blocks.length - 0) + (if s.sites = [] then 0 else 1) < 2 * cx.partition.blocks.length + 3 := by
    rw [if_pos hsites]
    omega
  obtain ⟨turns, n, s', hw, hends⟩ := hround.works hfuel
  obtain ⟨⟨D, hr⟩, he, hlifted, hfound⟩ := hw.spec hround
  rw [List.take_zero, List.map_nil, List.nil_append, List.map_take] at hlifted
  rw [hsites, List.nil_append] at hfound
  refine ⟨turns, n, s', hw, hends, hr.good.entriesNodup, hlifted, hfound, hr.good.padsNodup, fun mod h => ?_⟩
  obtain ⟨t, hrun, hfin, hled⟩ := liftMethod_led h hcx
  obtain ⟨D', hg, -⟩ := hfin.good
  obtain ⟨_, s₁, hopen', hrest⟩ := ok_of_bind hrun
  obtain ⟨_, s₂, hall, hclose⟩ := ok_of_bind hrest
  cases hopen.symm.trans hopen'
  rw [hall] at hends
  obtain ⟨hn, hnil⟩ := hends
  obtain rfl : n = s'.entries.length := Nat.le_antisymm hr.count (List.getElem?_eq_none_iff.1 hn)
  have hentries := ((hr.closeModule hnil (hstart.mono he) (hent.mono he)).of_run hclose).2
  -- what was scheduled was lifted
  have hdone {b : BlockId} (hb : Led cx t b) (B : CodeBlock) (hB : B ∈ cx.partition.blocks) (heq : b = cx.blockOf B.start) :
      (B.start : Int) ∈ turns.flatMap Turn.lifted := by
    obtain ⟨e, he⟩ := hb B hB heq
    rw [← hlifted, List.take_of_length_le (by simp)]
    exact List.mem_map_of_mem (hentries ▸ he)
  have hmarked {b : BlockId} {k : Block} (hk : mod.block? b = some k) (hb : Led cx t b) : k.term ≠ .unreachable := fun hterm => by
    obtain ⟨B, hB, heq, hno⟩ := (hg.leads hk).1 hterm
    exact hno (hb B hB heq)
  refine ⟨hnil, fun c p p' hp hp' => ?_, fun b k hk hterm => ?_, fun B hB k hk hne => ?_, fun b hb => ?_⟩
  · have hmem {q : BlockId} (hq : mod.IsPad c q) : (c, q) ∈ t.pads := hfin.isPad_iff.1 hq
    exact (Prod.mk.inj (List.inj_on_of_nodup_map hg.padsNodup (hmem hp) (hmem hp') rfl)).2
  · exact List.eq_nil_iff_forall_not_mem.2 fun p hp => hmarked hk ((hled hk).1 p hp) hterm
  · obtain ⟨p, hp⟩ := List.exists_mem_of_ne_nil _ hne
    exact hdone ((hled hk).1 p hp) B hB rfl
  · have hb : Led cx t b := by
      cases hb with
      | refl =>
        obtain ⟨k, hk, hkind⟩ := hg.entry
        rw [show mod.entry = 0 from congrArg Module.Header.entry hg.header]
        exact hg.toGoodModule.led hk (by rw [hkind]; nofun)
      | tail _ hx =>
        obtain ⟨k, hk, hx⟩ := hx
        exact (hled hk).2 b hx
    exact ⟨fun k hk => hmarked hk hb, hdone hb⟩

/-- The turns of a quotient that cleanup code protects come to an end. -/
theorem guardedQuotient_worklist : ∃ cx s turns n s', context guardedQuotient {} = .ok cx ∧
    cx.openModule.run { builder := .new guardedQuotient.key } = (.ok (), s) ∧ Works cx 0 s turns n s' ∧
    (s'.entries.map (·.1)).take n = turns.flatMap Turn.lifted := by
  have hopened : ((context guardedQuotient {}).toOption.any fun cx =>
      (cx.openModule.run { builder := .new guardedQuotient.key }).1.isOk) = true := by decide +kernel
  obtain ⟨cx, hcx, hrun⟩ := exists_ok_of_any hopened
  rcases hs : cx.openModule.run { builder := .new guardedQuotient.key } with ⟨_ | u, s⟩
  · rw [hs] at hrun
    cases hrun
  · obtain ⟨turns, n, s', hw, -, -, hlifted, -⟩ := liftMethod_worklist hcx hs
    exact ⟨cx, s, turns, n, s', hcx, hs, hw, hlifted⟩

end Bytelift
