import Bytelift.Machine.Heap

/-!
# The elements of an array

An array answers reads like a table from its indices to values, however its elements are kept: an element has the value that the last
call gave it which changed it, and zero before that. So an array that keeps all elements and one that keeps those written since it was
filled cannot be told apart.

Results:
* `Tabulates.apply`: **a call within the array changes the array as it changes the table**;
* `stores_elements`: **after any calls an element is what the last call that changed it says.**
-/

namespace Bytelift.Machine

/-- A call that changes elements of an array. -/
inductive Store
  | fill (v : Value)
  | set (index : Int) (v : Value)

namespace Store

/-- Whether the index of a call is one of an array with so many elements. -/
def Within (n : Nat) : Store → Prop
  | .fill _ => True
  | .set index _ => 0 ≤ index ∧ index < n

/-- The value that a call gives to the element at an index, if it changes it. -/
def value? (i : Int) : Store → Option Value
  | .fill v => some v
  | .set index v => if index = i then some v else none

def apply (a : ArrayBody) : Store → Option ArrayBody
  | .fill v => some (a.fill v)
  | .set index v => a.set? index v

end Store

namespace ArrayBody

/-- An array after calls; `none` if one of them is refused. -/
def stores (a : ArrayBody) (cs : List Store) : Option ArrayBody := cs.foldlM Store.apply a

/-- An array with so many elements answers reads like a table. -/
structure Tabulates (a : ArrayBody) (n : Nat) (table : Int → Value) : Prop where
  length : a.length = n
  size : ∀ values, a.elements = .dense values → values.size = n
  get : ∀ i : Int, 0 ≤ i → i < n → a.get? i = some (table i)

variable {a : ArrayBody} {n : Nat} {table : Int → Value}

theorem tabulates_dense (elem : Option Kind) (n : Nat) (v : Value) :
    Tabulates ⟨elem, n, .dense (Array.replicate n v)⟩ n fun _ => v := by
  refine ⟨rfl, fun values hv => ?_, fun i hlo hhi => ?_⟩
  · cases hv
    exact Array.size_replicate
  · simp only [get?, if_pos hlo]
    rw [Array.getElem?_replicate, if_pos (by omega)]

theorem tabulates_sparse (elem : Option Kind) (n : Nat) (v : Value) : Tabulates ⟨elem, n, .sparse [] v⟩ n fun _ => v :=
  ⟨rfl, fun _ hv => (by cases hv), fun _ _ _ => rfl⟩

/-- **A call within the array changes the array as it changes the table.** -/
theorem Tabulates.apply (h : a.Tabulates n table) {c : Store} (hc : c.Within n) :
    ∃ a', c.apply a = some a' ∧ a'.Tabulates n fun i => (c.value? i).getD (table i) := by
  obtain ⟨elem, length, elements⟩ := a
  obtain ⟨hlength, hsize, hget⟩ := h
  obtain rfl : length = n := hlength
  cases elements with
  | dense values =>
    have hn : values.size = length := hsize values rfl
    cases c with
    | fill v =>
      refine ⟨_, rfl, ?_⟩
      dsimp only [fill]
      rw [hn]
      exact tabulates_dense elem length v
    | set index v =>
      obtain ⟨hlo, hhi⟩ := hc
      refine ⟨⟨elem, length, .dense (values.setIfInBounds index.toNat v)⟩, if_pos ⟨hlo, by omega⟩, rfl, fun _ hv => ?_, fun i hi hin => ?_⟩
      · cases hv
        simpa using hn
      have hread := hget i hi hin
      simp only [get?, if_pos hi] at hread ⊢
      rw [Array.getElem?_setIfInBounds, Store.value?, hread]
      by_cases heq : index = i
      · subst heq
        simp [hn, show index.toNat < length by omega]
      · rw [if_neg (by omega), if_neg heq]
        rfl
  | sparse written rest =>
    cases c with
    | fill v => exact ⟨_, rfl, tabulates_sparse elem length v⟩
    | set index v =>
      refine ⟨_, rfl, rfl, fun _ hv => (by cases hv), fun i hi hin => ?_⟩
      have hread := hget i hi hin
      simp only [get?, Option.some.injEq] at hread ⊢
      rw [List.lookup_cons, Store.value?]
      by_cases heq : index = i
      · subst heq
        simp
      · rw [beq_false_of_ne (Ne.symm heq), if_neg heq]
        exact hread

theorem Tabulates.stores (h : a.Tabulates n table) {cs : List Store} (hcs : ∀ c ∈ cs, c.Within n) :
    ∃ a', a.stores cs = some a' ∧ a'.Tabulates n fun i => (cs.reverse.findSome? (·.value? i)).getD (table i) := by
  induction cs generalizing a table with
  | nil => exact ⟨a, rfl, h⟩
  | cons c cs ih =>
    obtain ⟨hc, hcs⟩ := List.forall_mem_cons.1 hcs
    obtain ⟨a1, ha1, h1⟩ := h.apply hc
    obtain ⟨a', ha', h'⟩ := ih h1 hcs
    refine ⟨a', by rw [ArrayBody.stores, List.foldlM_cons, ha1]; exact ha', ?_⟩
    simpa only [List.reverse_cons, List.findSome?_append, Option.getD_or, List.findSome?_singleton] using h'

/-- **After any calls an element is what the last call that changed it says**: the value stored at its index since the last fill, else the
value of that fill, else zero. So it does not matter how the elements are kept. -/
theorem stores_elements (elem : Option Kind) (n : Nat) {cs : List Store} (hcs : ∀ c ∈ cs, c.Within n) :
    ∃ a dense sparse, (new elem n).stores cs = some a ∧ a.length = n ∧
      stores ⟨elem, n, .dense (Array.replicate n {})⟩ cs = some dense ∧ stores ⟨elem, n, .sparse [] {}⟩ cs = some sparse ∧
      ∀ i : Int, 0 ≤ i → i < n → a.get? i = some ((cs.reverse.findSome? (·.value? i)).getD {}) ∧
        dense.get? i = a.get? i ∧ sparse.get? i = a.get? i := by
  have hnew : (new elem n).Tabulates n fun _ => {} := by
    unfold new
    split
    · exact tabulates_dense elem n {}
    · exact tabulates_sparse elem n {}
  obtain ⟨a, ha, h⟩ := hnew.stores hcs
  obtain ⟨dense, hdense, hd⟩ := (tabulates_dense elem n {}).stores hcs
  obtain ⟨sparse, hsparse, hs⟩ := (tabulates_sparse elem n {}).stores hcs
  refine ⟨a, dense, sparse, ha, h.length, hdense, hsparse, fun i hi hin => ⟨h.get i hi hin, ?_, ?_⟩⟩
  · rw [hd.get i hi hin, h.get i hi hin]
  · rw [hs.get i hi hin, h.get i hi hin]

/-- A long array that is filled between two stores. -/
theorem stores_elements_filled : ∃ a, (new none 70000).stores [.set 3 (.ofInt 1), .fill (.ofInt 2), .set 69999 (.ofInt 5)] = some a ∧
    a.length = 70000 ∧ a.get? 3 = some (.ofInt 2) ∧ a.get? 69999 = some (.ofInt 5) := by
  have hcs : ∀ c ∈ [Store.set 3 (.ofInt 1), .fill (.ofInt 2), .set 69999 (.ofInt 5)], c.Within 70000 := by simp [Store.Within]
  obtain ⟨a, _, _, ha, hlength, -, -, hget⟩ := stores_elements none 70000 hcs
  exact ⟨a, ha, hlength, (hget 3 (by decide) (by decide)).1, (hget 69999 (by decide) (by decide)).1⟩

end ArrayBody

end Bytelift.Machine
