import Bytelift.Proofs.Lift.Topology
import Bytelift.Proofs.Simulation.Track

/-!
# Frames of lifted methods

A module declares how many slots its frames have for stack entries and for temporaries. Stack entries are counted when
they are stored, and what is loaded at the start of a block was stored by whoever scheduled the block. So every slot that a
lifted module reads or writes is declared, and a run never has to make room for one.

Results:
* `liftMethod_frame`: **the frame that a lifted module declares is large enough.**
-/

namespace Bytelift

open Ir Lift

/-- The number of slots that a module declares in an area. The local variables are those of the method. -/
def Ir.Module.room? (mod : Module) : SlotSpace → Option Nat
  | .local => none
  | .stack => some mod.numStack.toNat
  | .temp => some mod.temps.size

/-- Every slot that is read or written is declared. -/
def Ir.Module.Roomy (mod : Module) : Prop :=
  ∀ v i n, mod.inst? v = some i → i.Accesses → mod.room? i.slot.space = some n → 0 ≤ i.slot.index ∧ i.slot.index < n

namespace Machine

variable {call : Caller} {mod : Module} {c c' : Config} {f f' : Frame} {s s' : State} {slot : Slot} {v : Value}
  {space : SlotSpace} {n : Nat}

/-- An area that grows within what is declared. -/
def Frame.Widens (space : SlotSpace) (n : Nat) (f f' : Frame) : Prop :=
  (f.area space).size ≤ (f'.area space).size ∧ (f'.area space).size ≤ max (f.area space).size n

namespace Frame.Widens

theorem of_eq (h : f'.area space = f.area space) : Widens space n f f' := by
  unfold Widens
  rw [h]
  exact ⟨Nat.le_refl _, Nat.le_max_left _ _⟩

theorem trans {f'' : Frame} (h : Widens space n f f') (h' : Widens space n f' f'') : Widens space n f f'' :=
  ⟨h.1.trans h'.1, h'.2.trans (Nat.max_le.2 ⟨h.2, Nat.le_max_right _ _⟩)⟩

theorem write? (hw : f.write? slot v = some f') (hslot : slot.space = space → slot.index < n) : Widens space n f f' := by
  unfold Frame.write? at hw
  split at hw
  · cases hw
    by_cases hs : slot.space = space
    · subst hs
      have hlt := hslot rfl
      unfold Widens
      rw [area_setArea, if_pos rfl, Array.size_setIfInBounds]
      split
      · omega
      · simp only [Array.size_append, Array.size_replicate]
        omega
    · exact of_eq (by rw [area_setArea, if_neg (Ne.symm hs)])
  · cases hw

end Frame.Widens

variable (hmod : mod.Roomy) (hn : mod.room? space = some n)
include hmod hn

theorem Executes.room {ids : List ValueId} (h : Executes call mod ids f s f' s') : Frame.Widens space n f f' := by
  induction h with
  | done => exact .of_eq rfl
  | @step w vs i f s f₁ s₁ f' s' hi he _ ih =>
    refine .trans ?_ ih
    rcases exec_ok he with ⟨hop, -, a, x, -, -, hw⟩ | ⟨-, rfl | ⟨x, rfl⟩⟩
    · exact .write? hw fun hs => (hmod w i n hi (.inr hop) (hs ▸ hn)).2
    · exact .of_eq rfl
    · exact .of_eq (by cases space <;> rfl)

/-- **A step makes no more room than is declared.** -/
theorem Step.room (h : Step call mod c c') : Frame.Widens space n c.frame c'.frame := by
  have thrown {f : Frame} {obj : Option Ref} : Frame.Widens space n f { f with inflight := obj } :=
    .of_eq (by cases space <;> rfl)
  obtain ⟨k, hk, f, s, ⟨hx, ht⟩ | ⟨before, v, after, i, obj, -, hx, -, -, -, -, hf⟩⟩ := h.cases
  · refine (hx.room hmod hn).trans ?_
    rcases execTerm_jump ht with ⟨-, hf, -⟩ | ⟨_, _, _, -, -, -, -, hf⟩
    · exact .of_eq (by rw [hf])
    · exact hf ▸ thrown
  · exact hf ▸ (hx.room hmod hn).trans thrown

theorem Path.room {P : BlockId → Prop} (h : Path call mod P c c') : Frame.Widens space n c.frame c'.frame := by
  induction h with
  | done => exact .of_eq rfl
  | step _ hs _ ih => exact (hs.room hmod hn).trans ih

end Machine

theorem liftMethod_roomy {m : Method} {settings : Settings} {mod : Module} (h : liftMethod m settings = .ok mod) :
    mod.Roomy ∧ mod.temps.toList.Nodup := by
  obtain ⟨cx, hcx⟩ := exists_context h
  obtain ⟨s, hfin, rfl⟩ := liftMethod_finished h hcx
  obtain ⟨o, hgood, -⟩ := hfin.good
  refine ⟨fun v i n hi hacc hn => ?_, hgood.temps⟩
  have hslot := hgood.slots hi hacc
  generalize i.slot = slot at hslot hn
  unfold Module.room? at hn
  rw [hfin.numStack] at hn
  cases hslot with
  | «local» => cases hn
  | @stack k hk =>
    obtain rfl := Option.some.inj hn
    exact ⟨Int.natCast_nonneg k, by simpa using hk⟩
  | @temp k name hk =>
    obtain rfl := Option.some.inj hn
    exact ⟨Int.natCast_nonneg k, Int.ofNat_lt.2 (Array.getElem?_eq_some_iff.1 hk).1⟩

/-- **The frame that a lifted module declares is large enough.** Every slot that is read or written is declared, no
temporary has two slots, and the areas of a frame do not outgrow what is declared, wherever the run has come to. -/
theorem liftMethod_frame {m : Method} {settings : Settings} {mod : Module} (h : liftMethod m settings = .ok mod) :
    (∀ v i n, mod.inst? v = some i → i.Accesses → mod.room? i.slot.space = some n → 0 ≤ i.slot.index ∧ i.slot.index < n) ∧
    mod.temps.toList.Nodup ∧
    ∀ space n, mod.room? space = some n → ∀ call start i f σ, Machine.ComesTo call mod start i f σ →
      ((start.frame.area space).size ≤ n → (f.area space).size ≤ n) ∧
      ((start.frame.area space).size = n → (f.area space).size = n) := by
  obtain ⟨hmod, htemps⟩ := liftMethod_roomy h
  refine ⟨hmod, htemps, fun space n hn call start i f σ hcomes => ?_⟩
  obtain ⟨c, k, before, v, after, hpath, -, -, hx, -⟩ := hcomes
  obtain ⟨hlo, hhi⟩ := (hpath.room hmod hn).trans (hx.room hmod hn)
  omega

/-- The handler of the quotient finds the exception in the only slot of the stack, where it was put from the only
temporary. -/
theorem caughtQuotient_frame : ∃ mod, liftMethod caughtQuotient {} = .ok mod ∧ mod.numStack = 1 ∧ mod.temps.size = 1 ∧
    ∀ v i, mod.inst? v = some i → i.Accesses → i.slot.space = .stack → i.slot.index = 0 := by
  have hlifted : ((liftMethod caughtQuotient {}).toOption.any fun mod => mod.numStack = 1 ∧ mod.temps.size = 1) = true := by
    decide +kernel
  obtain ⟨mod, hmod, hsizes⟩ := exists_ok_of_any hlifted
  obtain ⟨hstack, htemps⟩ := of_decide_eq_true hsizes
  refine ⟨mod, hmod, hstack, htemps, fun v i hi hacc hs => ?_⟩
  obtain ⟨hlo, hhi⟩ := (liftMethod_frame hmod).1 v i 1 hi hacc (by rw [hs, Module.room?, hstack]; rfl)
  omega

end Bytelift
