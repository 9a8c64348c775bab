import Bytelift.Assoc
import Mathlib.Data.List.Forall2

/-!
# Traversals

A function that may fail is applied to one member of a list after another. If it fails for none of them, the results belong
to the members one by one.

Results:
* `mapM_eq_some_iff`, `forall₂_of_mapM_ok`: **a traversal that succeeds relates each member to its result**.
-/

namespace Bytelift

open List

variable {α β : Type} {R : α → β → Prop} {l : List α} {l' : List β}

theorem takeWhile_append_stop {p : α → Bool} {m : List α} (hm : ∀ a ∈ m.head?, p a = false) (l : List α) :
    (l ++ m).takeWhile p = l.takeWhile p := by
  induction l with
  | nil => cases m <;> simp_all
  | cons a l ih => simp [takeWhile_cons, ih]

theorem takeWhile_append_of_head {p : α → Bool} {m : List α} (hl : ∀ a ∈ l, p a = true) (hm : ∀ a ∈ m.head?, p a = false) :
    (l ++ m).takeWhile p = l := by
  rw [takeWhile_append_of_pos hl, show m.takeWhile p = [] from takeWhile_append_stop hm [], append_nil]

/-! ## Related lists -/

theorem exists_of_mem_left (h : Forall₂ R l l') {a : α} (ha : a ∈ l) : ∃ b ∈ l', R a b := by
  induction h with
  | nil => cases ha
  | cons hr _ ih =>
    rcases mem_cons.1 ha with rfl | ha
    · exact ⟨_, mem_cons_self, hr⟩
    · obtain ⟨b, hb, hr⟩ := ih ha
      exact ⟨b, mem_cons_of_mem _ hb, hr⟩

theorem exists_of_mem_right (h : Forall₂ R l l') {b : β} (hb : b ∈ l') : ∃ a ∈ l, R a b :=
  exists_of_mem_left h.flip hb

theorem forall₂_trans {γ : Type} {S : β → γ → Prop} {T : α → γ → Prop} {l'' : List γ} (h : Forall₂ R l l')
    (h' : Forall₂ S l' l'') (hT : ∀ {a b c}, R a b → S b c → T a c) : Forall₂ T l l'' := by
  induction h generalizing l'' with
  | nil =>
    cases h'
    exact .nil
  | cons hr _ ih =>
    cases h' with
    | cons hs h' => exact .cons (hT hr hs) (ih h')

/-! ## Association lists -/

theorem lookup_assign [DecidableEq α] [BEq α] [LawfulBEq α] (k x : α) (v : β) (l : List (α × β)) :
    (assign k v l).lookup x = if x = k then some v else l.lookup x := by
  fun_induction assign k v l with
  | case1 => grind
  | case2 v' l => grind
  | case3 k' v' l _ ih => grind

/-! ## Options -/

variable {f : α → Option β}

theorem mapM_eq_some_iff : l.mapM f = some l' ↔ Forall₂ (fun a b => f a = some b) l l' := by
  induction l generalizing l' with
  | nil => simp [forall₂_nil_left_iff, eq_comm]
  | cons a l ih =>
    rw [mapM_cons, forall₂_cons_left_iff]
    simp only [bind, Option.bind_eq_some_iff, pure, Option.some.injEq, ih]
    constructor
    · rintro ⟨b, hb, l', hl', rfl⟩
      exact ⟨b, l', hb, hl', rfl⟩
    · rintro ⟨b, l', hb, hl', rfl⟩
      exact ⟨b, hb, l', hl', rfl⟩

theorem exists_mapM (h : ∀ a ∈ l, ∃ b, f a = some b ∧ R a b) : ∃ l', l.mapM f = some l' ∧ Forall₂ R l l' := by
  induction l with
  | nil => exact ⟨[], rfl, .nil⟩
  | cons a l ih =>
    obtain ⟨⟨b, hb, hR⟩, hl⟩ := forall_mem_cons.1 h
    obtain ⟨l', hl', hall⟩ := ih hl
    refine ⟨b :: l', ?_, .cons hR hall⟩
    rw [mapM_cons, hb, hl']
    rfl

theorem mapM_map {γ : Type} {g : β → γ} (h : l.mapM f = some l') : l.mapM (fun a => (f a).map g) = some (l'.map g) := by
  rw [mapM_eq_some_iff] at h ⊢
  rw [forall₂_map_right_iff]
  exact h.imp fun a b hab => by rw [hab]; rfl

/-! ## Results that are no errors -/

theorem exists_of_bind_ok {ε : Type} {x : Except ε α} {f : α → Except ε β} {b : β} (h : x >>= f = .ok b) :
    ∃ a, x = .ok a ∧ f a = .ok b := by
  cases x with
  | error e => cases h
  | ok a => exact ⟨a, rfl, h⟩

theorem forall₂_of_mapM_ok {ε : Type} {f : α → Except ε β} (h : l.mapM f = .ok l') :
    Forall₂ (fun x y => f x = .ok y) l l' := by
  induction l generalizing l' with
  | nil =>
    cases h
    exact .nil
  | cons x l ih =>
    rw [mapM_cons] at h
    obtain ⟨y, hy, h⟩ := exists_of_bind_ok h
    obtain ⟨ys, hys, h⟩ := exists_of_bind_ok h
    cases h
    exact .cons hy (ih hys)

theorem exists_mapM_ok {ε : Type} {f : α → Except ε β} (h : ∀ a ∈ l, ∃ b, f a = .ok b) :
    ∃ l', l.mapM f = .ok l' := by
  induction l with
  | nil => exact ⟨[], rfl⟩
  | cons a l ih =>
    obtain ⟨⟨b, hb⟩, hl⟩ := forall_mem_cons.1 h
    obtain ⟨l', hl'⟩ := ih hl
    exact ⟨b :: l', by rw [mapM_cons, hb, hl']; rfl⟩

theorem exists_of_mapM_error {ε : Type} {f : α → Except ε β} {e : ε} (h : l.mapM f = .error e) :
    ∃ a ∈ l, f a = .error e := by
  induction l with
  | nil => cases h
  | cons a l ih =>
    rw [mapM_cons] at h
    cases ha : f a with
    | error e' =>
      rw [ha] at h
      cases h
      exact ⟨a, mem_cons_self, ha⟩
    | ok b =>
      rw [ha] at h
      cases hl : l.mapM f with
      | ok l' =>
        rw [hl] at h
        cases h
      | error e' =>
        rw [hl] at h
        cases h
        obtain ⟨a', ha', he⟩ := ih hl
        exact ⟨a', mem_cons_of_mem a ha', he⟩

/-! ## Actions on a state -/

section Actions

variable {ε σ : Type} {x : ExceptT ε (StateM σ) α} {f : α → ExceptT ε (StateM σ) β} {b : β} {s s' : σ}

theorem run_bind (x : ExceptT ε (StateM σ) α) (f : α → ExceptT ε (StateM σ) β) (s : σ) :
    (x >>= f).run s = match x.run s with
      | (.ok a, s') => (f a).run s'
      | (.error e, s') => (.error e, s') := by
  change (match x.run s with | (r, s') => ExceptT.bindCont f r s') = _
  cases x.run s with
  | mk r s' => cases r <;> rfl

/-- An action with two parts ends well if both parts do. -/
theorem run_bind_ok : (x >>= f).run s = (.ok b, s') ↔ ∃ a s1, x.run s = (.ok a, s1) ∧ (f a).run s1 = (.ok b, s') := by
  rw [run_bind]
  rcases x.run s with ⟨_ | a, s1⟩
  · exact iff_of_false nofun fun ⟨_, _, heq, _⟩ => nomatch heq
  · exact ⟨fun h => ⟨a, s1, rfl, h⟩, fun ⟨_, _, heq, h⟩ => by cases heq; exact h⟩

theorem ok_of_bind (h : (x >>= f).run s = (.ok b, s')) : ∃ a s1, x.run s = (.ok a, s1) ∧ (f a).run s1 = (.ok b, s') :=
  run_bind_ok.1 h

end Actions

end Bytelift
