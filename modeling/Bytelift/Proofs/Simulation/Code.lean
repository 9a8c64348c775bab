import Bytelift.Proofs.Lift.Changes
import Bytelift.Proofs.Lift.Faults

/-!
# The code of an instruction in a lifted module

A finished module holds the code of every instruction of every block that was scheduled: there is a state in which
the lifting of the instruction began and one in which it ended, and the module has grown from there. A run of an
activation that stands at the cursor of the first state is about to execute the code of the instruction.

Results:
* `Finished.exists_codeFor`: **the instructions of scheduled blocks have code**;
* `liftMethod_multiArrays`: **the code for an array of several dimensions builds the whole tree.**
-/

namespace Bytelift.Lift

open Ir List Context
open Machine (Caller Config Value ComesTo)

variable {cx : Context} {B : CodeBlock} {O : Rest} {s s' s1 : State} {i : Instruction} {mod : Module}
  {pre post l : List Instruction}

/-- The code of an instruction in a module is what its lifting added between two states. -/
structure CodeFor (cx : Context) (mod : Module) (i : Instruction) (s s' : State) : Prop where
  ready : ∃ B O, Ready cx B O s
  bci : s.cursor.bci = i.bci
  run : (cx.lift i).run s = (.ok (), s')
  grows : s'.mod.Grows mod

/-- A run comes to an instruction at a bci that raises a new exception of a class. But for the exception and the meters,
the state is `σ` then. -/
def Raises (call : Caller) (mod : Module) (start : Config) (bci : Int) (σ : Machine.State) (cls : Text) : Prop :=
  ∃ j f₁ σ₁ σ₂, ComesTo call mod start j f₁ σ₁ ∧ j.bci = bci ∧
    (Machine.exec call mod j f₁).run σ₁.counted = (.error (.thrown (some σ.heap.size)), σ₂) ∧
    σ₂.bare = { σ with heap := σ.heap.push { cls := cls } }.bare


/-- Of the instructions of a block, only the last one may end it. -/
theorem falls_of_split (h : B.Straight) (heq : B.insts = pre ++ i :: post) (hne : post ≠ []) : i.op.falls = true := by
  obtain ⟨init, last, hsplit, hinit, -⟩ := h.split
  obtain ⟨front, x, rfl⟩ := eq_nil_or_concat post |>.resolve_left hne
  have hmem : i ∈ init := by
    rw [hsplit, concat_eq_append, ← cons_append, ← append_assoc] at heq
    rw [(append_inj' heq rfl).1]
    simp
  obtain ⟨hb, -, hends⟩ := hinit i hmem
  exact Opcode.falls_of_straight hb hends

/-- An instruction that is lifted leaves the cursor where the next one can be lifted, unless it is the last one. -/
theorem Ready.liftHead (h : Ready cx B O s) (heq : B.insts = pre ++ i :: post) :
    Wp (cx.liftInstructions [i]) s fun _ s' => Evolves s s' ∧ (post ≠ [] → Ready cx B O s') := by
  have hi : i ∈ B.insts := by simp [heq]
  have hst := h.tiled.straight B h.mem
  have hlast : i.op.falls = false → B.insts.getLast? = some i := fun hf => by
    by_cases hne : post = []
    · simp [heq, hne]
    · rw [falls_of_split hst heq hne] at hf
      cases hf
  change Wp (_ >>= fun _ => pure ()) s _
  refine (h.liftNext hi hlast).bind fun _ s1 hs1 => ?_
  unfold LiftedTo at hs1
  split at hs1
  · exact ⟨hs1.2.1, fun _ => hs1.1⟩
  · rename_i hf
    exact ⟨hs1.evolves, fun hne => absurd (falls_of_split hst heq hne) hf⟩

theorem liftInstructions_cons (cx : Context) (i : Instruction) (l : List Instruction) :
    cx.liftInstructions (i :: l) = cx.liftInstructions [i] >>= fun _ => cx.liftInstructions l := by
  unfold liftInstructions
  simp [forM_cons]

theorem lift_of_liftInstructions (h : (cx.liftInstructions [i]).run s = (.ok (), s1)) :
    (cx.lift i).run { s with cursor := { s.cursor with bci := (i.bci : Int) } } = (.ok (), s1) := by
  unfold liftInstructions at h
  rw [forM_eq_forM, forM_cons, forM_nil] at h
  obtain ⟨_, s2, h, hnil⟩ := ok_of_bind h
  obtain ⟨-, rfl⟩ := ok_of_pure hnil
  obtain ⟨_, s3, hmove, h⟩ := ok_of_bind h
  obtain ⟨_, s4, hrefuse, hlift⟩ := ok_of_bind h
  obtain rfl : { s with cursor := { s.cursor with bci := (i.bci : Int) } } = s3 := (Prod.mk.inj hmove).2
  unfold refuseIf at hrefuse
  split at hrefuse
  · cases hrefuse
  · obtain ⟨-, rfl⟩ := ok_of_pure hrefuse
    exact hlift

theorem Ready.liftRest (pre : List Instruction) (h : Ready cx B O s) (heq : B.insts = pre ++ l) :
    Wp (cx.liftInstructions l) s fun _ s' => Evolves s s' := by
  induction l generalizing s pre with
  | nil => exact .refl s
  | cons i l ih =>
    rw [liftInstructions_cons]
    refine (h.liftHead heq).bind fun _ s1 ⟨he, hnext⟩ => ?_
    by_cases hne : l = []
    · subst hne
      exact he
    · exact (ih (pre ++ [i]) (hnext hne) (by simp [heq])).mono fun _ s2 he2 => he.trans he2

theorem Ready.codeFor {s2 : State} (pre : List Instruction) (h : Ready cx B O s)
    (heq : B.insts = pre ++ i :: l) (hhead : (cx.liftInstructions [i]).run s = (.ok (), s1))
    (hrest : (cx.liftInstructions l).run s1 = (.ok (), s2)) (hg : s2.mod.Grows mod) :
    CodeFor cx mod i { s with cursor := { s.cursor with bci := (i.bci : Int) } } s1 := by
  obtain ⟨-, hnext⟩ := (h.liftHead heq).of_run hhead
  have hin : i ∈ B.insts := by simp [heq]
  have hb := h.tiled.bounds h.mem i hin
  have hlt := h.tiled.lt_next (h.tiled.mem_insts h.mem hin)
  have hevolves : Evolves s1 s2 := by
    by_cases hne : l = []
    · subst hne
      obtain ⟨-, rfl⟩ := ok_of_pure hrest
      exact .refl _
    · exact ((hnext hne).liftRest (pre ++ [i]) (by simp [heq])).of_run hrest
  exact ⟨⟨B, O, h.moveTo i.bci (by omega)⟩, rfl, lift_of_liftInstructions hhead, hevolves.module.trans hg⟩

/-- The lifting of an instruction is a part of that of its block. -/
theorem Ready.exists_codeFor (pre : List Instruction) (h : Ready cx B O s)
    (heq : B.insts = pre ++ l) (hrun : (cx.liftInstructions l).run s = (.ok (), s1)) (hg : s1.mod.Grows mod) (hi : i ∈ l) :
    ∃ s0 s0', CodeFor cx mod i s0 s0' := by
  induction l generalizing s pre with
  | nil => cases hi
  | cons j l ih =>
    rw [liftInstructions_cons] at hrun
    obtain ⟨_, s2, hhead, hrest⟩ := ok_of_bind hrun
    rcases mem_cons.1 hi with rfl | hi
    · exact ⟨_, _, h.codeFor pre heq hhead hrest hg⟩
    · obtain ⟨-, hnext⟩ := (h.liftHead heq).of_run hhead
      exact ih (pre ++ [j]) (hnext (ne_nil_of_mem hi)) (by simp [heq]) hrest hi

/-! ## Loads of local variables -/

theorem Ready.loadsLocal (h : Ready cx B O s) {j : Instruction} {lane : Lane} (hj : cx.lift j = cx.liftLoad j lane) :
    Wp (cx.lift j) s fun _ s' => Advances cx B O s s' ∧ ∀ w f κ x xs, s'.mod.Grows w.mod → At w s f κ → Holds s f xs →
      f.read? (localSlot j) = some x → ∃ f', At w s' f' κ ∧ Holds s' f' (x :: xs) ∧ f'.read? = f.read? := by
  rw [hj]
  change Wp (cx.load (Context.localSlot j) (laneTy lane) >>= fun v => Context.push v (laneTy lane)) s _
  refine (h.loads (.local _) (laneTy lane)).bind fun v s1 ⟨ha, hv, _, hd⟩ => ?_
  have had := h.advance ha
  refine (had.ready.pushes hv).mono fun _ s2 ⟨ha2, hs2⟩ => ⟨had.trans ha2, fun w f κ x xs hM hat hxs hx => ?_⟩
  subst hs2
  obtain ⟨f', hat', hr, hx'⟩ := hd w f κ x hM hat hx
  exact ⟨f', hat', (hr.holds ha.stack hxs).push hx', funext hr.slots⟩

/-- A run stands before an instruction, behind code that loads local variables. -/
theorem Ready.reaches_loads (before : List Instruction) (h : Ready cx B O s)
    (heq : B.insts = before ++ (pre ++ i :: post)) (hpre : ∀ j ∈ pre, ∃ lane, cx.lift j = cx.liftLoad j lane)
    (hrun : (cx.liftInstructions (pre ++ i :: post)).run s = (.ok (), s1)) (hg : s1.mod.Grows mod) :
    ∃ s0 s0', CodeFor cx mod i s0 s0' ∧ ∀ w f κ xs ys, w.mod = mod → At w s f κ → Holds s f ys →
      Forall₂ (fun j x => f.read? (localSlot j) = some x) pre xs →
      ∃ f', At w s0 f' κ ∧ Holds s0 f' (xs.reverse ++ ys) := by
  induction pre generalizing s before with
  | nil =>
    rw [nil_append, liftInstructions_cons] at hrun
    obtain ⟨_, s2, hhead, hrest⟩ := ok_of_bind hrun
    refine ⟨_, _, h.codeFor before heq hhead hrest hg, fun w f κ xs ys _ hat hys hxs => ?_⟩
    cases hxs
    exact ⟨f, hat, hys⟩
  | cons j pre ih =>
    rw [cons_append, liftInstructions_cons] at hrun
    obtain ⟨_, s2, hhead, hrest⟩ := ok_of_bind hrun
    obtain ⟨-, hnext⟩ := (h.liftHead heq).of_run hhead
    obtain ⟨lane, hlane⟩ := hpre j mem_cons_self
    obtain ⟨s0, s0', hcode, hreach⟩ := ih (before ++ [j]) (hnext (by simp)) (by simp [heq])
      (fun x hx => hpre x (mem_cons_of_mem _ hx)) hrest
    refine ⟨s0, s0', hcode, fun w f κ xs ys hw hat hys hxs => ?_⟩
    obtain ⟨x, ys', hx, htail, rfl⟩ := forall₂_cons_left_iff.1 hxs
    have hj := h.codeFor before heq hhead hrest hg
    obtain ⟨B', O', hready⟩ := hj.ready
    obtain ⟨-, hload⟩ := (hready.loadsLocal hlane).of_run hj.run
    obtain ⟨f', hat', hys', hf'⟩ := hload w f κ x ys (hw ▸ hj.grows) hat hys hx
    rw [← hf'] at htail
    rw [reverse_cons, append_assoc]
    exact hreach w f' κ ys' (x :: ys) hw hat' hys' htail

namespace Finished

variable {S : State}

/-- The code of a scheduled block begins in a blank block, where the operand stack is loaded. -/
theorem exists_begins (hfin : Finished cx S) (hB : B ∈ cx.partition.blocks) {e : Entry}
    (he : ((B.start : Int), e) ∈ S.entries) : ∃ O s0 s1 s2, Begins cx B O e s0 ∧
      (cx.reload e.shape).run (s0.enter cx B e) = (.ok (), s1) ∧ Ready cx B O s1 ∧
      (cx.liftInstructions B.insts).run s1 = (.ok (), s2) ∧ s2.mod.Grows S.mod := by
  obtain ⟨B', O, s0, s1, hstart, hbegin, hrun, hev⟩ := hfin.lifted _ he
  obtain rfl : B' = B := by
    have hlt := hfin.tiled.start_lt_stop hB
    have hlt' := hfin.tiled.start_lt_stop hbegin.mem
    exact hfin.tiled.eq_of_mem_range hbegin.mem hB (x := B.start) (by omega) (by omega)
  obtain ⟨_, s2, hset, hrun⟩ := ok_of_bind hrun
  obtain rfl : s0.enter cx B' e = s2 := (Prod.mk.inj hset).2
  obtain ⟨_, s3, hreload, hrun⟩ := ok_of_bind hrun
  obtain ⟨_, s4, hinsts, hrun⟩ := ok_of_bind hrun
  have ha := ((hbegin.ready.reloads hbegin.shape).of_run hreload).1
  have hend : Evolves s4 s1 := by
    have hw : Wp (do if (← get).cursor.done then pure () else cx.fallThrough B') s4 fun _ s' => Evolves s4 s' := by
      refine wp_bind.2 (wp_get.2 ?_)
      obtain ⟨j, hlast, hto⟩ := ha.ready.liftInstructions.of_run hinsts
      unfold LiftedTo at hto
      by_cases hf : j.op.falls = true
      · rw [if_pos hf] at hto
        obtain ⟨h4, -, hbci4, hdone⟩ := hto
        rw [if_neg (by simp [hdone.trans ha.proceeds.done])]
        exact (h4.fallThrough ⟨hlast, hbci4⟩ hf).mono fun _ _ hfin => hfin.evolves
      · rw [if_neg hf] at hto
        rw [if_pos hto.done]
        exact .refl _
    exact hw.of_run hrun
  exact ⟨O, s0, s3, s4, hbegin, hreload, ha.ready, hinsts, (hend.trans hev).module⟩

/-- **The instructions of scheduled blocks have code in the module.** -/
theorem exists_codeFor (hfin : Finished cx S) (hB : B ∈ cx.partition.blocks)
    (hs : Scheduled S B.start) (hi : i ∈ B.insts) : ∃ s s', CodeFor cx S.mod i s s' := by
  obtain ⟨e, he⟩ := hs
  obtain ⟨O, s0, s1, s2, -, -, hready, hinsts, hg⟩ := hfin.exists_begins hB he
  exact hready.exists_codeFor [] rfl hinsts hg hi

/-- Every activation of a lifted module is a run that can be followed. -/
def walk (hfin : Finished cx S) (call : Caller) (args : List Value) (st : Machine.State) : Walk where
  call := call
  mod := S.mod
  start := .start S.mod args st
  sound := hfin.sound
  nodup := hfin.nodup
  stands := hfin.stands (show Machine.Path call S.mod (fun _ => True) (.start S.mod args st) _ from .done trivial)

/-- **A run that comes to a block comes to an instruction that the block loads local variables for.** -/
theorem reaches (hfin : Finished cx S) (hB : B ∈ cx.partition.blocks) (hs : Entered S B.start [])
    (heq : B.insts = pre ++ i :: post)
    (hpre : ∀ j ∈ pre, ∃ lane, cx.lift j = cx.liftLoad j lane) :
    ∃ s s', CodeFor cx S.mod i s s' ∧ ∀ call args st c xs, Machine.Path call S.mod (fun _ => True) (.start S.mod args st) c →
      c.block = cx.blockOf B.start → Forall₂ (fun j x => c.frame.read? (localSlot j) = some x) pre xs →
      ∃ f σ, Reaches call S.mod (.start S.mod args st) s f σ ∧ σ.bare = c.state.bare ∧ Holds s f xs.reverse := by
  obtain ⟨e, he, hshape⟩ := hs
  obtain ⟨O, s0, s1, s2, hbegin, hreload, hready, hinsts, hg⟩ := hfin.exists_begins hB he
  obtain rfl : s0.enter cx B e = s1 := by
    rw [hshape] at hreload
    exact (Prod.mk.inj hreload).2
  rw [heq] at hinsts
  obtain ⟨s, s', hcode, hreach⟩ := hready.reaches_loads [] heq hpre hinsts hg
  refine ⟨s, s', hcode, fun call args st c xs hpath hblock hxs => ?_⟩
  obtain ⟨k, hk, hnil⟩ := hbegin.blank
  obtain ⟨b, f, σ⟩ := c
  obtain rfl : b = cx.blockOf B.start := hblock
  have hat : At (hfin.walk call args st) (s0.enter cx B e) f σ.bare := .of_path hpath hk hnil
  obtain ⟨f', ⟨σ', hσ', hbare⟩, hholds⟩ := hreach _ f _ xs [] rfl hat .nil hxs
  rw [append_nil] at hholds
  exact ⟨f', σ', hσ', hbare, hholds⟩

end Finished

end Bytelift.Lift

namespace Bytelift

open Ir
open Lift (CodeFor Reaches Holds Raises IsInt)

/-- **In a lifted module, the code for an array of several dimensions builds the whole tree.** The class has at least as many
dimensions as lengths are on the stack. A negative length raises an exception before anything is allocated. Otherwise the heap
grows by the tree of arrays and by nothing else: level `k` has the class without its first `k` brackets and the length number
`k`. The array is on the stack then, and the stack below it and the local variables are as before. -/
theorem liftMethod_multiArrays {m : Method} {settings : Settings} {mod : Module} {cx : Lift.Context}
    (h : liftMethod m settings = .ok mod) (hcx : Lift.context m settings = .ok cx) :
    ∃ S, cx.build.run { builder := Builder.new m.key } = (.ok (), S) ∧
    ∀ B ∈ cx.partition.blocks, Lift.Scheduled S B.start → ∀ i ∈ B.insts, i.op = .multianewarray →
    ∃ cls ft, m.pool.getClass i.poolIndex = .ok cls ∧ FieldType.parse cls.name = .ok ft ∧ 1 ≤ i.immediate.toNat ∧
    i.immediate.toNat ≤ ft.dims ∧ (∃ s s', CodeFor cx mod i s s') ∧
    ∀ s s', CodeFor cx mod i s s' → ∀ call args st f σ, Reaches call mod (.start mod args st) s f σ →
    ∀ xs below : List Machine.Value, xs.length = i.immediate.toNat → (∀ x ∈ xs, IsInt x) → Holds s f (xs.reverse ++ below) →
      ((∃ x ∈ xs, x.int32 < 0) → Raises call mod (.start mod args st) i.bci σ Machine.negativeSizeClass) ∧
      ((∀ x ∈ xs, 0 ≤ x.int32) → ∃ f' σ', Reaches call mod (.start mod args st) s' f' σ' ∧
        σ'.bare = { σ with heap := σ'.heap }.bare ∧
        Machine.Planted (xs.zipIdx.map fun p => (cls.name.drop p.2, p.1.int32.toInt.toNat)) σ.heap σ'.heap ∧
        Holds s' f' (.ofRef σ.heap.size :: below) ∧ ∀ n : Nat, f'.read? ⟨.local, n⟩ = f.read? ⟨.local, n⟩) := by
  obtain ⟨rfl, -, -⟩ := Lift.context_ok hcx
  obtain ⟨S, hbuild, -, hfin, hl, -⟩ := Lift.liftMethod_ends h hcx
  refine ⟨S, hbuild, fun B hB hs i hi hop => ?_⟩
  have hlift : cx.lift i = cx.liftMultiArray i := by
    unfold Lift.Context.lift
    rw [hop]
  obtain ⟨s₀, s₀', hcode₀⟩ := (hfin.link hl).exists_codeFor hB hs hi
  obtain ⟨B₀, O₀, hready₀⟩ := hcode₀.ready
  obtain ⟨-, cls, hcls, hdims, -⟩ := (hready₀.liftsMultiArray hcode₀.bci).of_run (hlift ▸ hcode₀.run)
  obtain ⟨ft, hft, hone, hle⟩ : ∃ ft, FieldType.parse cls.name = .ok ft ∧ 1 ≤ i.immediate.toNat ∧ i.immediate.toNat ≤ ft.dims := by
    unfold Lift.Context.hasDimensions at hdims
    split at hdims
    · exact ⟨_, ‹_›, by simpa using hdims⟩
    · cases hdims
  refine ⟨cls, ft, hcls, hft, hone, hle, ⟨s₀, s₀', hcode₀⟩, fun s s' hcode call args st f σ hreach xs below hlen hint hx => ?_⟩
  obtain ⟨B', O', hready⟩ := hcode.ready
  obtain ⟨-, cls', hcls', -, hdoes⟩ := (hready.liftsMultiArray hcode.bci).of_run (hlift ▸ hcode.run)
  obtain rfl := Except.ok.inj (hcls.symm.trans hcls')
  obtain ⟨hneg, hpos⟩ := hdoes ((hfin.link hl).walk call args st) f σ.bare xs below hcode.grows ⟨σ, hreach, rfl⟩ hlen hint hx
  refine ⟨hneg, fun hxs => ?_⟩
  obtain ⟨f', g, ⟨σ', hreach', hσ'⟩, hplant, hstack, hlocals⟩ := hpos hxs
  obtain rfl : σ'.heap = g := congrArg (·.heap) hσ'
  exact ⟨f', σ', hreach', hσ', hplant, hstack, hlocals⟩

/-! ## An array of two dimensions -/

/-- Leaves a number on the stack below an array of two dimensions with lengths that are given. -/
def matrixMethod : Method :=
  { owner := "T", name := "m", desc := "(II)[[I", isStatic := true
    maxLocals := 2, code := [0x1a, 0x1a, 0x1b, 0xc5, 0, 1, 2, 0xb0]
    pool := { entries := #[.cls { name := "[[I" }] } }

/-- Two rows of three zeros are built, and a negative length raises an exception. -/
theorem matrix_built : ∃ mod, liftMethod matrixMethod {} = .ok mod ∧
    (∃ s f σ, Reaches (Machine.invokeAt 8) mod (.start mod [.ofInt 2, .ofInt 3] { env := Machine.Env.new {} }) s f σ ∧
      Machine.Planted [(Text.ofString "[[I", 2), (Text.ofString "[I", 3)] #[] σ.heap ∧ Holds s f [.ofRef 0, .ofInt 2]) ∧
    ∃ σ, Raises (Machine.invokeAt 8) mod (.start mod [.ofInt 2, .ofInt (-1)] { env := Machine.Env.new {} }) 3 σ
      Machine.negativeSizeClass ∧ σ.heap = #[] := by
  have hrun : (Lift.lifts matrixMethod fun mod cx =>
      (cx.partition.blocks.any fun B => B.start = 0 && B.insts = [⟨0, .loadAt .int 0, 1, .none, false⟩,
        ⟨1, .loadAt .int 0, 1, .none, false⟩, ⟨2, .loadAt .int 1, 1, .none, false⟩, ⟨3, .multianewarray, 4, .poolCount 1 2, false⟩,
        ⟨7, .valueReturn .ref, 1, .none, false⟩]) &&
      [3, -1].all fun n : Int64 => ((Machine.Config.start mod [.ofInt 2, .ofInt n] { env := Machine.Env.new {} }).after?
        (Machine.invokeAt 8) mod (fun _ => True) 1).any fun c => c.block = cx.blockOf 0 &&
          c.frame.read? ⟨.local, 0⟩ = some (.ofInt 2) && c.frame.read? ⟨.local, 1⟩ = some (.ofInt n) && c.state.heap = #[]) = true := by
    decide +kernel
  obtain ⟨mod, cx, hmod, hcx, hrun⟩ := Lift.exists_of_lifts hrun
  simp only [Bool.and_eq_true, decide_eq_true_eq, Option.any_eq_true, List.any_eq_true, List.all_eq_true] at hrun
  obtain ⟨⟨B, hB, hstart, hinsts⟩, hruns⟩ := hrun
  obtain ⟨S, hbuild, hall⟩ := liftMethod_multiArrays hmod hcx
  obtain ⟨S', hbuild', -, hfin, hl, -⟩ := Lift.liftMethod_ends hmod hcx
  obtain rfl : S' = S := (Prod.mk.inj (hbuild'.symm.trans hbuild)).2
  have hfirst : Lift.Entered S' B.start [] := by
    rw [hstart]
    exact hfin.first
  obtain ⟨s, s', hcode, hreach⟩ := (hfin.link hl).reaches hB hfirst (show B.insts = [_, _, _] ++ _ from hinsts) fun j hj => by
    simp only [List.mem_cons, List.not_mem_nil, or_false] at hj
    rcases hj with rfl | rfl | rfl <;> exact ⟨.int, rfl⟩
  have hi : ⟨3, .multianewarray, 4, .poolCount 1 2, false⟩ ∈ B.insts := by simp [hinsts]
  obtain ⟨cls, ft, hcls, -, -, -, -, hdoes⟩ := hall B hB hfirst.scheduled _ hi rfl
  obtain rfl : { name := "[[I" } = cls := Except.ok.inj hcls
  have hat (n : Int64) (hn : n ∈ [3, -1]) : ∃ f σ, Reaches (Machine.invokeAt 8) mod
      (.start mod [.ofInt 2, .ofInt n] { env := Machine.Env.new {} }) s f σ ∧ σ.heap = #[] ∧ Holds s f [.ofInt n, .ofInt 2, .ofInt 2] := by
    obtain ⟨c, hc, ⟨⟨hblock, hx⟩, hy⟩, hheap⟩ := hruns n hn
    obtain ⟨f, σ, hσ, hbare, hholds⟩ := hreach (Machine.invokeAt 8) _ { env := Machine.Env.new {} } c [.ofInt 2, .ofInt 2, .ofInt n]
      (Machine.path_of_after? hc) (by rw [hblock, hstart]; rfl) (.cons hx (.cons hx (.cons hy .nil)))
    exact ⟨f, σ, hσ, (congrArg (·.heap) hbare).trans hheap, hholds⟩
  refine ⟨mod, hmod, ?_, ?_⟩
  · obtain ⟨f, σ, hσ, hheap, hholds⟩ := hat 3 (by decide)
    obtain ⟨-, hpos⟩ := hdoes s s' hcode _ _ _ f σ hσ [.ofInt 2, .ofInt 3] [.ofInt 2] rfl (by decide) hholds
    obtain ⟨f', σ', hσ', -, hplant, hstack, -⟩ := hpos (by decide)
    rw [hheap] at hplant hstack
    exact ⟨s', f', σ', hσ', hplant, hstack⟩
  · obtain ⟨f, σ, hσ, hheap, hholds⟩ := hat (-1) (by decide)
    obtain ⟨hneg, -⟩ := hdoes s s' hcode _ _ _ f σ hσ [.ofInt 2, .ofInt (-1)] [.ofInt 2] rfl (by decide) hholds
    exact ⟨σ, hneg (by decide), hheap⟩

end Bytelift
