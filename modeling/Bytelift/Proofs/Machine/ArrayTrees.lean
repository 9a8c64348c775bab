import Bytelift.Proofs.Machine.Execution
import Mathlib.Algebra.Group.Nat.Defs

/-!
# Trees of arrays

An array of several dimensions is a tree of arrays on the heap: the elements of an array are references to arrays of
the next level, and those of the last level are zeros. While the elements of an array are set one after the other, the
heap has grown by the array and by the trees of the elements that have been set (`Filling`).

Main definitions:
* `Tree`: a reference is the root of a tree of arrays, and these are the references of all its arrays;
* `Planted`: a heap has grown by one tree and by nothing else.

Results:
* `Filling.step`: **setting the next element to a new tree goes on with the filling**.
-/

namespace Bytelift.Machine

open List

variable {h h₁ h2 : Array Object} {r : Ref} {a : ArrayBody} {xs : List Value} {n m : Nat} {x y : Value} {κ : State}

/-! ## Numbers -/

/-- A value whose integer part is a natural number of at most 31 bits. -/
structure Value.IsNat (x : Value) (n : Nat) : Prop where
  eq : x.i.toInt = n
  lt : n < 2 ^ 31

theorem Value.IsNat.int32 (hx : x.IsNat n) : x.int32.toInt = n := by
  have := hx.lt
  rw [Value.int32, Int64.toInt_toInt32, hx.eq, Int.bmod_eq_of_le] <;> omega

theorem Value.IsNat.holds_lt (hx : x.IsNat n) (hy : y.IsNat m) : holds .lt x.i y.i = decide (n < m) := by
  refine decide_eq_decide.2 (Int64.lt_iff_toInt_lt.trans ?_)
  rw [hx.eq, hy.eq, Int.ofNat_lt]

theorem Value.IsNat.succ (hx : x.IsNat n) (hy : y.IsNat 1) (hn : n + 1 < 2 ^ 31) :
    ∃ z, compute .add .i32 x y = pure z ∧ z.IsNat (n + 1) := by
  refine ⟨.ofInt (x.int32 + y.int32).toInt64, rfl, ?_, hn⟩
  change (x.int32 + y.int32).toInt64.toInt = _
  rw [Int32.toInt_toInt64, Int32.toInt_add, hx.int32, hy.int32, Int.bmod_eq_of_le] <;> omega

/-! ## The elements of an array -/

/-- An array has the given elements. -/
structure ArrayBody.Lists (a : ArrayBody) (xs : List Value) : Prop where
  length : a.length = xs.length
  get? : ∀ n : Nat, n < xs.length → a.get? n = xs[n]?

theorem ArrayBody.lists_fill_new (elem : Option Kind) (n : Nat) (v : Value) :
    ((ArrayBody.new elem n).fill v).Lists (List.replicate n v) := by
  unfold ArrayBody.new ArrayBody.fill
  split
  · rename_i values heq
    obtain rfl : values = Array.replicate n {} := by
      split at heq <;> cases heq
      rfl
    refine ⟨by simp, fun i hi => ?_⟩
    rw [length_replicate] at hi
    simp [ArrayBody.get?, hi]
  · refine ⟨by simp, fun i hi => ?_⟩
    rw [length_replicate] at hi
    simp [ArrayBody.get?, hi]

theorem ArrayBody.Lists.set? (ha : a.Lists xs) (hn : n < xs.length) (v : Value) :
    ∃ a', a.set? n v = some a' ∧ a'.Lists (xs.set n v) := by
  have hget (i : Nat) (hi : i < xs.length) := ha.get? i hi
  unfold ArrayBody.get? at hget
  unfold ArrayBody.set?
  cases hel : a.elements with
  | dense values =>
    simp only [hel, Int.natCast_nonneg, if_true, Int.toNat_natCast] at hget
    have hsize : n < values.size := by
      have hsome := hget n hn
      rw [getElem?_eq_getElem hn] at hsome
      exact (Array.getElem?_eq_some_iff.1 hsome).1
    refine ⟨_, if_pos (by omega), by simp [ha.length], fun i hi => ?_⟩
    rw [length_set] at hi
    simp only [ArrayBody.get?, Int.natCast_nonneg, if_true, Int.toNat_natCast]
    rw [Array.getElem?_setIfInBounds, getElem?_set, hget i hi]
    simp only [hsize, hn, if_true]
  | sparse written rest =>
    simp only [hel] at hget
    refine ⟨_, rfl, by simp [ha.length], fun i hi => ?_⟩
    rw [length_set] at hi
    simp only [ArrayBody.get?, lookup_cons]
    rw [getElem?_set, ← hget i hi]
    by_cases hin : i = n
    · subst hin
      simp [hn]
    · simp [Ne.symm hin, beq_eq_false_iff_ne.2 (show (i : Int) ≠ n by omega)]

/-! ## Operations on arrays -/

theorem setIfInBounds_push_size {α : Type} (l : Array α) (b c : α) : (l.push b).setIfInBounds l.size c = l.push c := by
  rw [← Array.toList_inj]
  simp

theorem run_arrayOf {o : Object} (ho : κ.heap[r]? = some o) (ha : o.array = some a) :
    (arrayOf (.ofRef r)).run κ = (.ok (r, o, a), κ) := by
  refine (run_bind_of_ok (run_object rfl ho)).trans ?_
  change (need o.array >>= fun a => pure (r, o, a) : RunM _).run κ = _
  rw [ha]
  rfl

theorem run_allocArray {method cls : Text} {elem : Option Kind} (hx : x.IsNat n) : (allocArray method cls elem x).run κ =
    (.ok κ.heap.size, { κ with heap := κ.heap.push { cls := cls, array := some (ArrayBody.new elem n) } }) := by
  unfold allocArray
  rw [hx.int32, if_neg (by omega)]
  rfl

theorem run_fillArray {o : Object} (ho : κ.heap[r]? = some o) (ha : o.array = some a) (v : Value) :
    (fillArray (.ofRef r) v).run κ =
      (.ok (), { κ with heap := κ.heap.setIfInBounds r { o with array := some (a.fill v) } }) :=
  run_bind_of_ok (run_arrayOf ho ha)

theorem run_setElement {o : Object} {a' : ArrayBody} {i : Int} {v : Value} (ho : κ.heap[r]? = some o)
    (ha : o.array = some a) (hs : a.set? i v = some a') : (setElement (.ofRef r) i v).run κ =
      (.ok (), { κ with heap := κ.heap.setIfInBounds r { o with array := some a' } }) := by
  refine (run_bind_of_ok (run_arrayOf ho ha)).trans ?_
  change (need (a.set? i v) >>= _ : RunM _).run κ = _
  rw [hs]
  rfl

/-! ## Trees -/

/-- A reference is the root of a tree of arrays with the given classes and lengths, the outermost first. The last list
has the references of all arrays of the tree. -/
inductive Tree (heap : Array Object) : List (Text × Nat) → Ref → List Ref → Prop
  | leaf {cls : Text} {n : Nat} {r : Ref} {a : ArrayBody} : heap[r]? = some { cls := cls, array := some a } →
      a.Lists (List.replicate n {}) → Tree heap [(cls, n)] r [r]
  | node {cls : Text} {inner : List (Text × Nat)} {r : Ref} {a : ArrayBody} {children : List (Ref × List Ref)} :
      inner ≠ [] → heap[r]? = some { cls := cls, array := some a } → a.Lists (children.map fun c => .ofRef c.1) →
      (∀ c ∈ children, Tree heap inner c.1 c.2) →
      Tree heap ((cls, children.length) :: inner) r (r :: children.flatMap (·.2))

variable {dims inner : List (Text × Nat)} {refs : List Ref} {cls : Text} {children : List (Ref × List Ref)}

theorem Tree.lt_size (ht : Tree h dims r refs) : r < h.size := by
  cases ht with
  | leaf ho _ | node _ ho _ _ => exact (Array.getElem?_eq_some_iff.1 ho).1

/-- A tree depends on its own arrays only. -/
theorem Tree.congr (ht : Tree h dims r refs) (heq : ∀ p ∈ refs, h₁[p]? = h[p]?) : Tree h₁ dims r refs := by
  induction ht with
  | leaf ho ha => exact .leaf ((heq _ mem_cons_self).trans ho) ha
  | node hne ho ha _ ih =>
    refine .node hne ((heq _ mem_cons_self).trans ho) ha fun c hc => ih c hc fun p hp => heq p ?_
    exact mem_cons_of_mem _ (mem_flatMap.2 ⟨c, hc, hp⟩)

/-- A heap has grown by a tree of arrays, whose root comes first, and by nothing else. -/
structure Planted (dims : List (Text × Nat)) (h h₁ : Array Object) : Prop where
  old : ∀ p, p < h.size → h₁[p]? = h[p]?
  tree : Tree h₁ dims h.size (List.range' h.size (h₁.size - h.size))

theorem Planted.leaf (ha : a.Lists (List.replicate n {})) :
    Planted [(cls, n)] h (h.push { cls := cls, array := some a }) := by
  refine ⟨fun p hp => by simp [Array.getElem?_push, Nat.ne_of_lt hp], ?_⟩
  rw [Array.size_push, Nat.add_sub_cancel_left]
  exact .leaf Array.getElem?_push_size ha

/-- A heap has grown by an array of references, of which the first ones are set, and by the trees of these. -/
structure Filling (cls : Text) (n : Nat) (inner : List (Text × Nat)) (h : Array Object) (children : List (Ref × List Ref))
    (h₁ : Array Object) : Prop where
  old : ∀ p, p < h.size → h₁[p]? = h[p]?
  array : ∃ a : ArrayBody, h₁[h.size]? = some { cls := cls, array := some a } ∧
    a.Lists (children.map (fun c => .ofRef c.1) ++ List.replicate (n - children.length) ({} : Value))
  trees : ∀ c ∈ children, Tree h₁ inner c.1 c.2
  refs : h.size :: children.flatMap (·.2) = List.range' h.size (h₁.size - h.size)

namespace Filling

theorem start (ha : a.Lists (List.replicate n {})) :
    Filling cls n inner h [] (h.push { cls := cls, array := some a }) where
  old := (Planted.leaf ha).old
  array := ⟨a, Array.getElem?_push_size, ha⟩
  trees := by simp
  refs := by simp

theorem bounds (hf : Filling cls n inner h children h₁) {c : Ref × List Ref} (hc : c ∈ children) {p : Nat} (hp : p ∈ c.2) :
    h.size < p ∧ p < h₁.size := by
  have hmem : p ∈ children.flatMap (·.2) := mem_flatMap.2 ⟨c, hc, hp⟩
  have hrefs := hf.refs
  cases hk : h₁.size - h.size with
  | zero => simp [hk] at hrefs
  | succ k =>
    rw [hk, range'_succ, List.cons.injEq] at hrefs
    rw [hrefs.2, mem_range'_1] at hmem
    omega

/-- **Setting the next element to a new tree goes on with the filling.** -/
theorem step (hf : Filling cls n inner h children h₁) (hp : Planted inner h₁ h2) (hlt : children.length < n) (κ : State) :
    ∃ h3, (setElement (.ofRef h.size) children.length (.ofRef h₁.size)).run { κ with heap := h2 } =
        (.ok (), { κ with heap := h3 }) ∧
      Filling cls n inner h (children ++ [(h₁.size, List.range' h₁.size (h2.size - h₁.size))]) h3 := by
  obtain ⟨a, ho, ha⟩ := hf.array
  have hroot : h.size < h₁.size := (Array.getElem?_eq_some_iff.1 ho).1
  have hgrown : h₁.size < h2.size := hp.tree.lt_size
  obtain ⟨a', hset, ha'⟩ := ha.set? (n := children.length) (by simp; omega) (.ofRef h₁.size)
  refine ⟨_, run_setElement (κ := { κ with heap := h2 }) ((hp.old _ hroot).trans ho) rfl hset, fun p hlt => ?_, ⟨a', ?_, ?_⟩,
    fun c hc => ?_, ?_⟩
  · rw [Array.getElem?_setIfInBounds_ne (by omega), hp.old p (by omega), hf.old p hlt]
  · exact Array.getElem?_setIfInBounds_self_of_lt (Nat.lt_trans hroot hgrown)
  · have hlen : (children.map fun c => Value.ofRef c.1).length = children.length := length_map _
    have hrest : List.replicate (n - children.length) ({} : Value) =
        {} :: List.replicate (n - (children.length + 1)) {} := by
      rw [← replicate_succ]
      congr 1
      omega
    rw [hrest] at ha'
    simpa [set_append] using ha'
  · rcases mem_append.1 hc with hc | hc
    · refine (hf.trees c hc).congr fun p hpc => ?_
      have hb := hf.bounds hc hpc
      rw [Array.getElem?_setIfInBounds_ne (by omega), hp.old p hb.2]
    · obtain rfl := mem_singleton.1 hc
      refine hp.tree.congr fun p hpc => ?_
      have hb := (mem_range'_1.1 hpc).1
      rw [Array.getElem?_setIfInBounds_ne (by omega)]
  · rw [flatMap_append, ← cons_append, hf.refs, Array.size_setIfInBounds]
    have happ := range'_append_1 (s := h.size) (m := h₁.size - h.size) (n := h2.size - h₁.size)
    rw [show h.size + (h₁.size - h.size) = h₁.size by omega,
      show h₁.size - h.size + (h2.size - h₁.size) = h2.size - h.size by omega] at happ
    simpa using happ

/-- When all elements are set, one tree has been planted. -/
theorem planted (hf : Filling cls n inner h children h₁) (hn : children.length = n) (hne : inner ≠ []) :
    Planted ((cls, n) :: inner) h h₁ := by
  obtain ⟨a, ho, ha⟩ := hf.array
  subst hn
  refine ⟨hf.old, ?_⟩
  rw [← hf.refs]
  refine .node hne ho ?_ hf.trees
  simpa using ha

end Filling

end Bytelift.Machine
