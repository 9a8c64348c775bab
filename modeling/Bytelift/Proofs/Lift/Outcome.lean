import Bytelift.Lift.State
import Bytelift.Proofs.Traversals

/-!
# Outcomes of lifting steps

`Wp x s Q` says how a lifting step may end from a state: with a value and a state of which `Q` holds, or
with a bailout that blames the method and not the lifter. The rules follow the combinators that steps
are built from, so that the specification of a step is proved from those of its parts.
-/

namespace Bytelift

/-- What the instructions that take a constant call it. -/
def Reason.poolUses : List Text :=
  ["invoke", "ldc", "field", "new", "anewarray", "multianewarray", "checkcast", "instanceof"]

/-- The reasons that blame the method: neither a module that does not verify nor a missing part. -/
def Reason.Honest : Reason → Prop
  | .unverified _ | .internal => False
  | .poolOperand use _ => use ∈ poolUses
  | _ => True

namespace Lift

/-- From a state, a step ends so that `Q` holds, or it gives up for an honest reason. -/
def Wp {α : Type} (x : LiftM α) (s : State) (Q : α → State → Prop) : Prop :=
  match x.run s with
  | (.ok a, s') => Q a s'
  | (.error e, _) => e.reason.Honest

section Rules

variable {α β : Type} {x : LiftM α} {s : State} {Q P : α → State → Prop} {f : α → LiftM β} {r : Reason}

theorem Wp.of_run {a : α} {s' : State} (h : Wp x s Q) (hx : x.run s = (.ok a, s')) : Q a s' := by
  unfold Wp at h
  rwa [hx] at h

theorem Wp.honest {e : Bailout} {s' : State} (h : Wp x s Q) (hx : x.run s = (.error e, s')) : e.reason.Honest := by
  unfold Wp at h
  rwa [hx] at h

theorem Wp.mono (h : Wp x s P) (hpq : ∀ a s', P a s' → Q a s') : Wp x s Q := by
  unfold Wp at h ⊢
  split
  · rename_i hx
    rw [hx] at h
    exact hpq _ _ h
  · rename_i hx
    rw [hx] at h
    exact h

/-- What holds of every successful end may be assumed of the end. -/
theorem Wp.and_run (h : Wp x s Q) : Wp x s fun a s' => Q a s' ∧ x.run s = (.ok a, s') := by
  unfold Wp at h ⊢
  split
  · rename_i hx
    rw [hx] at h
    exact ⟨h, hx⟩
  · rename_i hx
    rwa [hx] at h

theorem Wp.and (h : Wp x s P) (h' : Wp x s Q) : Wp x s fun a s' => P a s' ∧ Q a s' := by
  unfold Wp at h h' ⊢
  split
  · rename_i hx
    rw [hx] at h h'
    exact ⟨h, h'⟩
  · rename_i hx
    rwa [hx] at h

theorem wp_pure {a : α} : Wp (pure a) s Q ↔ Q a s := Iff.rfl

theorem run_get (f : State → LiftM β) (s : State) : (get >>= f).run s = (f s).run s := rfl

theorem wp_bind {Q : β → State → Prop} :
    Wp (x >>= f) s Q ↔ Wp x s fun a s' => Wp (f a) s' Q := by
  unfold Wp
  rw [run_bind]
  cases hx : x.run s with
  | mk r s' => cases r <;> rfl

theorem Wp.bind {Q : β → State → Prop} (h : Wp x s P)
    (hf : ∀ a s', P a s' → Wp (f a) s' Q) : Wp (x >>= f) s Q :=
  wp_bind.2 (h.mono hf)

theorem wp_get {Q : State → State → Prop} : Wp get s Q ↔ Q s s := Iff.rfl

theorem wp_modify {f : State → State} {Q : PUnit → State → Prop} : Wp (modify f) s Q ↔ Q ⟨⟩ (f s) :=
  Iff.rfl

theorem wp_modifyGet {f : State → α × State} : Wp (modifyGet f) s Q ↔ Q (f s).1 (f s).2 := Iff.rfl

theorem wp_failAt {bci : Int} (h : r.Honest) : Wp (failAt bci r) s Q := h

theorem wp_failHere (h : r.Honest) : Wp (failHere r) s Q := h

theorem wp_refuseIf {c : Prop} [Decidable c] {bci : Int} {Q : Unit → State → Prop}
    (hr : r.Honest) (h : ¬ c → Q () s) : Wp (refuseIf c bci r) s Q := by
  unfold refuseIf
  split
  · exact hr
  · exact h ‹_›

theorem wp_refuseHereIf {c : Prop} [Decidable c] {Q : Unit → State → Prop}
    (hr : r.Honest) (h : ¬ c → Q () s) : Wp (refuseHereIf c r) s Q := by
  unfold refuseHereIf
  split
  · exact hr
  · exact h ‹_›

theorem wp_require {o : Option α} {a : α} (h : o = some a) (hq : Q a s) : Wp (require o) s Q := by
  subst h
  exact hq

theorem run_tryCatch (x : LiftM α) (y : Bailout → LiftM α) (s : State) :
    (tryCatch x y).run s = match x.run s with
      | (.ok a, s') => (.ok a, s')
      | (.error e, s') => (y e).run s' := by
  rcases hx : x.run s with ⟨r, s'⟩
  have hx : x s = (r, s') := hx
  change (ExceptT.tryCatch x y) s = _
  unfold ExceptT.tryCatch ExceptT.mk
  simp only [bind, StateT.bind, hx]
  cases r <;> rfl

theorem run_trace (cx : Context) (r : Record) (s : State) :
    ∃ rs, (cx.trace r).run s = (.ok (), { s with records := rs }) := by
  unfold Context.trace
  split
  · exact ⟨_, rfl⟩
  · exact ⟨s.records, rfl⟩

theorem wp_trace {cx : Context} {r : Record} {Q : Unit → State → Prop}
    (h : ∀ rs, Q () { s with records := rs }) : Wp (cx.trace r) s Q := by
  obtain ⟨rs, hr⟩ := run_trace cx r s
  unfold Wp
  rw [hr]
  exact h rs

/-- A handler that only adds a record and raises the bailout again does not matter. -/
theorem wp_rethrow {cx : Context} {r : Record} (h : Wp x s Q) :
    Wp (tryCatch x fun e => do cx.trace r; throw e) s Q := by
  unfold Wp at h ⊢
  rw [run_tryCatch]
  rcases hx : x.run s with ⟨res, s'⟩
  rw [hx] at h
  cases res with
  | ok a => exact h
  | error e =>
    obtain ⟨rs, hr⟩ := run_trace cx r s'
    dsimp only
    rw [run_bind, hr]
    exact h

theorem wp_forM {l : List α} {f : α → LiftM PUnit} {I : List α → State → Prop}
    (h : ∀ a l s, I (a :: l) s → Wp (f a) s fun _ s' => I l s') (hs : I l s) :
    Wp (l.forM f) s fun _ s' => I [] s' := by
  induction l generalizing s with
  | nil => exact hs
  | cons a l ih =>
    change Wp (f a >>= fun _ => l.forM f) s _
    exact (h a l s hs).bind fun _ s' hs' => ih hs'

theorem wp_mapM {l : List α} {I : List α → List β → State → Prop}
    (h : ∀ a l bs s, I (a :: l) bs s → Wp (f a) s fun b s' => I l (bs ++ [b]) s') (hs : I l [] s) :
    Wp (l.mapM f) s fun bs s' => I [] bs s' := by
  -- the results so far come first
  have hfrom : ∀ l bs s, I l bs s → Wp (l.mapM f) s fun bs' s' => I [] (bs ++ bs') s' := by
    intro l
    induction l with
    | nil =>
      intro bs s hs
      rw [List.mapM_nil]
      exact wp_pure.2 (by simpa using hs)
    | cons a l ih =>
      intro bs s hs
      rw [List.mapM_cons]
      refine (h a l bs s hs).bind fun b s1 hs1 => (ih _ s1 hs1).bind fun bs' s2 hs2 => ?_
      exact wp_pure.2 (by simpa using hs2)
  exact hfrom l [] s hs

end Rules
end Lift
end Bytelift
