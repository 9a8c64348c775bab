import Bytelift.Proofs.Machine.Objects

/-!
# Computations that do not see the meters

The machine counts blocks and instructions and notes labels. No operation of the machine looks at these
counts: from two states that differ in them only, it ends in the same way. What such a computation does can
therefore be told on states without counts.

Result: `exec_blind`: **an instruction does not see the meters**, if the calls that it makes do not.
-/

namespace Bytelift.Machine

open Ir

@[simp] theorem State.bare_bare (s : State) : s.bare.bare = s.bare := rfl
@[simp] theorem State.bare_counted (s : State) : s.counted.bare = s.bare := rfl

@[simp] theorem State.bare_noted (s : State) (label : Text) : (s.noted label).bare = s.bare := by
  unfold State.noted State.bare Meter.enter
  dsimp only
  split
  · rfl
  · split <;> rfl

/-- How a computation ends, counts apart. -/
def outcome {α : Type} (x : RunM α) (s : State) : Except Stop α × State := ((x.run s).1, (x.run s).2.bare)

/-- A computation does not see the counts. -/
def Blind {α : Type} (x : RunM α) : Prop := ∀ s, outcome x s.bare = outcome x s

section Rules

variable {α β : Type} {x : RunM α} {f : α → RunM β}

theorem Blind.congr (h : Blind x) {s s' : State} (hs : s.bare = s'.bare) : outcome x s = outcome x s' := by
  rw [← h s, ← h s', hs]

theorem Blind.throw (e : Stop) : Blind (throw e : RunM α) := fun _ => rfl

end Rules

/-- From two states that differ in the counts only, a computation ends alike if the calls that it makes do. -/
theorem Does.outcome_eq {call : Caller} {P : Stop → Prop} {α : Type} {x : RunM α} {s s' : State}
    (hcall : ∀ key args, Blind (call key args)) (h : Does call P x s) (hs : s'.bare = s.bare) :
    outcome x s' = outcome x s := by
  induction h generalizing s' with
  | pure | throw | alloc | setObject | setEnv => exact Blind.congr (fun _ => rfl) hs
  | @bind_ok _ _ s x f _ _ ihx ihf =>
    have hx := ihx hs
    unfold outcome at hx ⊢
    rw [run_bind, run_bind]
    rcases hr : x.run s with ⟨e | a, s1⟩ <;> rcases hr' : x.run s' with ⟨e' | a', s1'⟩ <;> rw [hr, hr'] at hx <;>
      obtain ⟨hresult, hbare⟩ := Prod.mk.inj hx <;> cases hresult
    · exact congrArg (Prod.mk _) hbare
    · exact ihf a s1 hr hbare
  | @get _ s g hg _ ih =>
    have hsame : g s' = g s := by rw [← hg s', hs, hg s]
    change outcome (g s') s' = outcome (g s) s
    rw [hsame, ih hs]
  | call => exact (hcall _ _).congr hs

/-- **An instruction does not see the meters.** -/
theorem exec_blind {call : Caller} (hcall : ∀ key args, Blind (call key args)) (mod : Module) (i : Inst) (f : Frame) :
    Blind (exec call mod i f) :=
  fun s => (exec_does call mod i f s).outcome_eq hcall s.bare_bare

end Bytelift.Machine
