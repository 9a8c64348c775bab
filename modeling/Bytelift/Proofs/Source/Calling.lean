import Bytelift.Proofs.Code.Assembled
import Bytelift.Proofs.Source.Spelling

/-!
# The lines of a body as calls of an assembler

The lines of a body are calls of the assembler. No call changes what the assembler was opened with, and only the
lines `.try` and `.finally` add rows to the exception table. So a method has the header that its source gives, and
its exception table has the rows that its body has, in order.

Results:
* `assembleMethod_rows`: **a method has the header and the rows of its source.**
-/

namespace Bytelift

open Assembler

namespace Source

variable {a a' : Assembler}

/-- The rows of the lines of a body. -/
def bodyRows (ls : List BodyLine) : List TryEntry := ls.filterMap fun l => lineRow? l.head l.args

theorem assembleBody_calls {ls : List BodyLine} (h : assembleBody a ls = .ok a') :
    ∃ cs : List Call, a' = Call.run a cs ∧ cs.filterMap Call.row? = bodyRows ls := by
  induction ls generalizing a with
  | nil =>
    cases h
    exact ⟨[], rfl, rfl⟩
  | cons l ls ih =>
    unfold assembleBody at h
    split at h
    · cases h
    rename_i a1 hline
    split at h
    · cases h
    obtain ⟨c, rfl, hrow, -⟩ := calls_assembleLine hline
    obtain ⟨cs, rfl, hrows⟩ := ih h
    refine ⟨c :: cs, rfl, ?_⟩
    unfold bodyRows at hrows ⊢
    rw [List.filterMap_cons, List.filterMap_cons, hrow, hrows]

/-- The rows of an exception table with the positions of their labels. -/
def Resolved (place : Text → Option Nat) (t : TryEntry) (e : ExceptionEntry) : Prop :=
  ∃ x y w : Nat, place t.start = some x ∧ place t.stop = some y ∧ place t.handler = some w ∧
    e = ⟨x, y, w, t.catchType, t.isCleanup⟩

/-- **A method has the header and the rows of its source.** -/
theorem assembleMethod_rows {classes : List ClassRef} {n : Nat} {symbol desc owner name : Text} {isStatic : Bool}
    {body : List BodyLine} {m : Method} (hsplit : splitMember? symbol = some (owner, name)) (hne : symbol ≠ Text.ofString "static")
    (h : assembleMethod classes ⟨n, (if isStatic then [Text.ofString "static"] else []) ++ [symbol, desc], body⟩ = .ok m) :
    m.owner = owner ∧ m.name = name ∧ m.desc = desc ∧ m.isStatic = isStatic ∧
      ∃ place, List.Forall₂ (Resolved place) (bodyRows body.reverse) m.exceptions := by
  have hbuilt : ∃ a, assembleBody (classes.foldl declareClass { owner, name, desc, isStatic }) body.reverse = .ok a ∧
      a.build.2 = .ok m := by
    unfold assembleMethod at h
    cases isStatic with
    | true =>
      simp only [if_true, List.singleton_append, hsplit] at h
      obtain ⟨a, ha, h⟩ := exists_of_bind_ok h
      refine ⟨a, ha, ?_⟩
      split at h <;> cases h
      assumption
    | false =>
      simp only [Bool.false_eq_true, if_false, List.nil_append, hne, hsplit] at h
      obtain ⟨a, ha, h⟩ := exists_of_bind_ok h
      refine ⟨a, ha, ?_⟩
      split at h <;> cases h
      assumption
  obtain ⟨a, ha, hbuild⟩ := hbuilt
  obtain ⟨cs, hcs, hrows⟩ := assembleBody_calls ha
  have houtline : a.outline = ((owner, name, desc, isStatic), bodyRows body.reverse) := by
    rw [hcs, outline_run, outline_declareClasses, hrows]
    rfl
  simp only [outline, Prod.mk.injEq] at houtline
  obtain ⟨⟨rfl, rfl, rfl, rfl⟩, htries⟩ := houtline
  obtain ⟨-, t, -, -, -, hresolved, -⟩ := of_build_ok hbuild
  have hheader : m.owner = a.owner ∧ m.name = a.name ∧ m.desc = a.desc ∧ m.isStatic = a.isStatic := by
    unfold build at hbuild
    split at hbuild
    · cases hbuild
    split at hbuild
    · cases hbuild
    · obtain ⟨code, -, hbuild⟩ := exists_of_bind_ok hbuild
      obtain ⟨rows, -, hbuild⟩ := exists_of_bind_ok hbuild
      cases hbuild
      exact ⟨rfl, rfl, rfl, rfl⟩
  refine ⟨hheader.1, hheader.2.1, hheader.2.2.1, hheader.2.2.2, fun l => a.labels[l]?, ?_⟩
  rw [← htries]
  exact hresolved.imp fun t e he => resolveTry_eq_ok he

end Source

end Bytelift
