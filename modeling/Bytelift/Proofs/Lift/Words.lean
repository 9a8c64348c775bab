import Bytelift.Proofs.Lift.Instructions

/-!
# Shuffles of words

The opcodes that rearrange the operand stack are defined on words, and a value of a wide type is made of two of them. An opcode takes
one group of words from the top and another one from below it, and puts copies of the groups in their place. Here the stack is spelled
out in words, and what an opcode does to these is compared with what `shuffle` does to whole values.

Results:
* `liftShuffle_words`: **a shuffle of values is the shuffle of their words** wherever that does not cut a value apart.
-/

namespace Bytelift

open List

namespace StackOp

variable {β : Type} (op : StackOp)

/-- How many words the upper group of an opcode has. -/
def upper : StackOp → Nat
  | .pop | .dup | .dupX1 | .dupX2 | .swap => 1
  | .pop2 | .dup2 | .dup2X1 | .dup2X2 => 2

/-- How many words the lower group of an opcode has. -/
def lower : StackOp → Nat
  | .pop | .pop2 | .dup | .dup2 => 0
  | .dupX1 | .dup2X1 | .swap => 1
  | .dupX2 | .dup2X2 => 2

/-- What an opcode leaves of its groups. -/
def arrange (upper lower : List β) : List β :=
  match op with
  | .pop | .pop2 => []
  | .swap => lower ++ upper
  | _ => upper ++ lower ++ upper

/-- The words after an opcode, the top first; `none` if there are too few. -/
def permute (ws : List β) : Option (List β) :=
  if ws.length < op.upper + op.lower then none
  else some (op.arrange (ws.take op.upper) ((ws.drop op.upper).take op.lower) ++ ws.drop (op.upper + op.lower))

example : [pop, pop2, dup, dupX1, dupX2, dup2, dup2X1, dup2X2, swap].map (·.permute [1, 2, 3, 4, 5]) =
    [[2, 3, 4, 5], [3, 4, 5], [1, 1, 2, 3, 4, 5], [1, 2, 1, 3, 4, 5], [1, 2, 3, 1, 4, 5], [1, 2, 1, 2, 3, 4, 5],
      [1, 2, 3, 1, 2, 4, 5], [1, 2, 3, 4, 1, 2, 5], [2, 1, 3, 4, 5]].map some := by decide

end StackOp

namespace Lift

variable {α : Type} {wide : α → Bool} {op : StackOp} {a : α} {s t u : List α} {w w' wu wl : List (α × Bool)}

/-- The words of values: a wide value has a second one below the first. -/
def words (wide : α → Bool) : List α → List (α × Bool)
  | [] => []
  | a :: s => if wide a then (a, false) :: (a, true) :: words wide s else (a, false) :: words wide s

/-- Words that end in the first word of a wide value. -/
def isOpen (wide : α → Bool) (w : List (α × Bool)) : Bool := w.getLast?.any fun x => wide x.1 && !x.2

/-- Words that begin with a second word. -/
def isRest (w : List (α × Bool)) : Bool := w.head?.any (·.2)

theorem words_wide (h : wide a = true) : words wide (a :: s) = (a, false) :: (a, true) :: words wide s := if_pos h

theorem words_narrow (h : ¬ wide a = true) : words wide (a :: s) = (a, false) :: words wide s := if_neg h

theorem words_append : words wide (s ++ t) = words wide s ++ words wide t := by
  induction s with
  | nil => rfl
  | cons a s ih =>
    by_cases ha : wide a = true
    · rw [cons_append, words_wide ha, words_wide ha, ih, cons_append, cons_append]
    · rw [cons_append, words_narrow ha, words_narrow ha, ih, cons_append]

theorem words_arrange : words wide (op.arrange s t) = op.arrange (words wide s) (words wide t) := by
  cases op <;> simp only [StackOp.arrange, words_append] <;> rfl

theorem words_injective : Function.Injective (words wide) := by
  intro s t h
  induction s generalizing t with
  | nil =>
    cases t with
    | nil => rfl
    | cons b t =>
      unfold words at h
      split at h <;> cases h
  | cons a s ih =>
    cases t with
    | nil =>
      unfold words at h
      split at h <;> cases h
    | cons b t =>
      grind [words]

theorem isRest_words : isRest (words wide s) = false := by
  cases s with
  | nil => rfl
  | cons a s =>
    unfold words
    split <;> rfl

theorem isOpen_cons {x : α × Bool} (h : (wide x.1 && !x.2) = false) : isOpen wide (x :: w) = isOpen wide w := by
  cases w with
  | nil => simp [isOpen, h]
  | cons y w => rfl

/-- Words that are cut into two parts are values on both sides, unless a value is cut apart: then both parts show it. -/
theorem words_cut (h : words wide s = w ++ w') : isOpen wide w = isRest w' ∧
    (isOpen wide w = false → ∃ u u', s = u ++ u' ∧ words wide u = w ∧ words wide u' = w') := by
  induction s generalizing w with
  | nil =>
    obtain ⟨rfl, rfl⟩ := append_eq_nil_iff.1 h.symm
    exact ⟨rfl, fun _ => ⟨[], [], rfl, rfl, rfl⟩⟩
  | cons a s ih =>
    cases w with
    | nil => exact ⟨(h ▸ isRest_words (s := a :: s)).symm, fun _ => ⟨[], a :: s, rfl, rfl, h⟩⟩
    | cons x w =>
      by_cases ha : wide a = true
      · rw [words_wide ha] at h
        obtain ⟨rfl, hrest⟩ := List.cons.inj h
        cases w with
        | nil =>
          -- the cut goes through the value
          rw [← show _ = w' from hrest]
          simp [isOpen, isRest, ha]
        | cons y w =>
          obtain ⟨rfl, hbelow⟩ := List.cons.inj hrest
          rw [show isOpen wide ((a, false) :: (a, true) :: w) = _ from isOpen_cons (x := (a, true)) (by simp)]
          refine ⟨(ih hbelow).1, fun ho => ?_⟩
          obtain ⟨u, u', rfl, rfl, rfl⟩ := (ih hbelow).2 ho
          exact ⟨a :: u, u', rfl, words_wide ha, rfl⟩
      · rw [words_narrow ha] at h
        obtain ⟨rfl, hrest⟩ := List.cons.inj h
        rw [isOpen_cons (by simpa using ha)]
        refine ⟨(ih hrest).1, fun ho => ?_⟩
        obtain ⟨u, u', rfl, rfl, rfl⟩ := (ih hrest).2 ho
        exact ⟨a :: u, u', rfl, words_narrow ha, rfl⟩

theorem isOpen_append (h : w' ≠ []) : isOpen wide (w ++ w') = isOpen wide w' := by
  unfold isOpen
  rw [getLast?_append, getLast?_eq_some_getLast h, Option.some_or]

theorem isRest_append (h : w ≠ []) : isRest (w ++ w') = isRest w := by
  cases w with
  | nil => exact absurd rfl h
  | cons x w => rfl

/-- If what an opcode leaves are whole values, it takes whole values. -/
theorem not_rest_of_whole (hs : words wide s = wu ++ wl ++ w) (ht : words wide t = op.arrange wu wl ++ w)
    (hu : wu.length = op.upper) (hl : wl.length = op.lower) : isRest (wl ++ w) = false ∧ isRest w = false := by
  have hne {n : Nat} {v : List (α × Bool)} (h : v.length = n + 1) : v ≠ [] := by
    rintro rfl
    cases h
  have hupper : isOpen wide wu = isRest (wl ++ w) := (words_cut (by rw [hs, append_assoc])).1
  have hlower : isOpen wide (wu ++ wl) = isRest w := (words_cut hs).1
  have hfirst (h : wu ≠ []) : isRest wu = false := by
    have hwhole : isRest (wu ++ (wl ++ w)) = false := by rw [← append_assoc, ← hs, isRest_words]
    rwa [isRest_append h] at hwhole
  cases op with
  | pop | pop2 =>
    obtain rfl := length_eq_zero_iff.1 hl
    have hw : isRest w = false := (show words wide t = w from ht) ▸ isRest_words
    exact ⟨hw, hw⟩
  | dup | dup2 =>
    obtain rfl := length_eq_zero_iff.1 hl
    have hcopy := (words_cut (ht.trans (by simp [StackOp.arrange] : _ = wu ++ (wu ++ w)))).1
    rw [isRest_append (hne hu), hfirst (hne hu)] at hcopy
    rw [hcopy] at hupper
    exact ⟨hupper.symm, hupper.symm⟩
  | swap =>
    have hswap : words wide t = wl ++ (wu ++ w) := ht.trans (by simp [StackOp.arrange])
    have hcopy := (words_cut hswap).1
    rw [isRest_append (hne hu), hfirst (hne hu), ← isOpen_append (hne hl), hlower] at hcopy
    refine ⟨?_, hcopy⟩
    rw [isRest_append (hne hl), ← isRest_append (hne hl), ← hswap, isRest_words]
  | dupX1 | dupX2 | dup2X1 | dup2X2 =>
    -- the lower group is followed by the upper one, so it does not end inside a value, and then neither does the upper one
    have hcopy : words wide t = wu ++ wl ++ (wu ++ w) := ht.trans (by simp [StackOp.arrange])
    have hw := (words_cut hcopy).1
    rw [hlower, isRest_append (hne hu), hfirst (hne hu)] at hw
    have hlast := (words_cut (hcopy.trans (append_assoc ..).symm)).1
    rw [isOpen_append (hne hu), hupper, hw] at hlast
    exact ⟨hlast, hw⟩

/-- If what an opcode leaves are whole values, then so are the two groups that it takes and what is below them. -/
theorem groups_of_whole (hs : words wide s = wu ++ wl ++ w) (ht : words wide t = op.arrange wu wl ++ w)
    (hu : wu.length = op.upper) (hl : wl.length = op.lower) :
    ∃ u l below, s = u ++ l ++ below ∧ t = op.arrange u l ++ below ∧ words wide u = wu ∧ words wide l = wl := by
  obtain ⟨hrest, hw⟩ := not_rest_of_whole hs ht hu hl
  obtain ⟨v, below, rfl, hv, rfl⟩ := (words_cut hs).2 ((words_cut hs).1.trans hw)
  have hcut : words wide (v ++ below) = wu ++ (wl ++ words wide below) := hs.trans (append_assoc ..)
  obtain ⟨u, l, rfl, rfl, rfl⟩ := (words_cut hv).2 ((words_cut hcut).1.trans hrest)
  refine ⟨u, l, below, rfl, @words_injective _ wide _ _ ?_, rfl, rfl⟩
  rw [ht, words_append, words_arrange]

/-! ## Values -/

theorem narrow_of_length (h : (words wide s).length = 1) : ∃ a, s = [a] ∧ wide a = false := by
  rcases s with _ | ⟨a, _ | ⟨b, s⟩⟩ <;> grind [words]

theorem wide_or_narrow_of_length (h : (words wide s).length = 2) :
    (∃ a, s = [a] ∧ wide a = true) ∨ ∃ a b, s = [a, b] ∧ wide a = false ∧ wide b = false := by
  rcases s with _ | ⟨a, _ | ⟨b, _ | ⟨c, s⟩⟩⟩ <;> grind [words]

theorem eq_nil_of_length (h : (words wide s).length = 0) : s = [] :=
  @words_injective _ wide _ _ (length_eq_zero_iff.1 h)

/-- The shuffle of values that are grouped as the words are. There is one form of an opcode for each way to make up its groups. -/
theorem shuffle_groups {l below : List α} (hu : (words wide u).length = op.upper) (hl : (words wide l).length = op.lower) :
    shuffle wide op (u ++ l ++ below) = some (op.arrange u l ++ below) := by
  cases op with
  | pop | dup =>
    obtain ⟨a, rfl, -⟩ := narrow_of_length hu
    obtain rfl := eq_nil_of_length hl
    rfl
  | dupX1 | swap =>
    obtain ⟨a, rfl, -⟩ := narrow_of_length hu
    obtain ⟨b, rfl, -⟩ := narrow_of_length hl
    rfl
  | dupX2 =>
    obtain ⟨a, rfl, -⟩ := narrow_of_length hu
    rcases wide_or_narrow_of_length hl with ⟨b, rfl, hb⟩ | ⟨b, c, rfl, hb, -⟩ <;> simp [shuffle, StackOp.arrange, hb]
  | pop2 | dup2 =>
    obtain rfl := eq_nil_of_length hl
    rcases wide_or_narrow_of_length hu with ⟨a, rfl, ha⟩ | ⟨a, b, rfl, ha, -⟩ <;> simp [shuffle, StackOp.arrange, ha]
  | dup2X1 =>
    obtain ⟨c, rfl, -⟩ := narrow_of_length hl
    rcases wide_or_narrow_of_length hu with ⟨a, rfl, ha⟩ | ⟨a, b, rfl, ha, -⟩ <;> simp [shuffle, StackOp.arrange, ha]
  | dup2X2 =>
    rcases wide_or_narrow_of_length hu with ⟨a, rfl, ha⟩ | ⟨a, b, rfl, ha, -⟩ <;>
      rcases wide_or_narrow_of_length hl with ⟨c, rfl, hc⟩ | ⟨c, d, rfl, hc, -⟩ <;> simp [shuffle, StackOp.arrange, ha, hc]

/-- Where an opcode leaves the words of whole values, the shuffle leaves these values. -/
theorem shuffle_of_permute (h : op.permute (words wide s) = some (words wide t)) : ∃ u l below, s = u ++ l ++ below ∧
    t = op.arrange u l ++ below ∧ (words wide u).length = op.upper ∧ (words wide l).length = op.lower ∧ shuffle wide op s = some t := by
  unfold StackOp.permute at h
  split at h
  · cases h
  rename_i hlen
  have hu : ((words wide s).take op.upper).length = op.upper := length_take_of_le (by omega)
  have hl : (((words wide s).drop op.upper).take op.lower).length = op.lower :=
    length_take_of_le (by rw [length_drop]; omega)
  have hs : words wide s = (words wide s).take op.upper ++ ((words wide s).drop op.upper).take op.lower ++
      (words wide s).drop (op.upper + op.lower) := by
    rw [append_assoc, ← drop_drop, take_append_drop, take_append_drop]
  obtain ⟨u, l, below, rfl, rfl, hwu, hwl⟩ := groups_of_whole hs (Option.some.inj h).symm hu hl
  rw [← hwu] at hu
  rw [← hwl] at hl
  exact ⟨u, l, below, rfl, rfl, hu, hl, shuffle_groups hu hl⟩

theorem shuffle_eq_none (h : op.permute (words wide s) = none) : shuffle wide op s = none := by
  have hlen : (words wide s).length < op.upper + op.lower := by simpa [StackOp.permute] using h
  revert hlen
  fun_cases shuffle wide op s <;> grind [words, StackOp.upper, StackOp.lower]

/-! ## Liftings -/

/-- The words of an operand stack. -/
abbrev stackWords (s : List StackEntry) : List (StackEntry × Bool) := words (·.ty.isWide) s

/-- Words that make up whole values: no value is cut apart. -/
def AreWhole (ws : List (StackEntry × Bool)) : Prop := ∃ s, stackWords s = ws

/-- **A shuffle of values is the shuffle of their words.** Wherever an opcode leaves whole values, it takes two groups of whole values
and arranges these, and what is below stays. With too few words the code is malformed. -/
theorem liftShuffle_words (op : StackOp) (σ : State) :
    (∀ ws, op.permute (stackWords σ.cursor.stack) = some ws → AreWhole ws → ∃ u l below,
      σ.cursor.stack = u ++ l ++ below ∧ (stackWords u).length = op.upper ∧ (stackWords l).length = op.lower ∧
      stackWords (op.arrange u l ++ below) = ws ∧
      (Context.liftShuffle op).run σ = (.ok (), { σ with cursor := { σ.cursor with stack := op.arrange u l ++ below } })) ∧
    (op.permute (stackWords σ.cursor.stack) = none → ∃ e : Bailout,
      e.kind = .malformed ∧ e.bci = σ.cursor.bci ∧ (Context.liftShuffle op).run σ = (.error e, σ)) := by
  have hrun : (Context.liftShuffle op).run σ = (shuffle (·.ty.isWide) op σ.cursor.stack).elim
      (.error { bci := σ.cursor.bci, reason := .underflow }, σ)
      fun s => (.ok (), { σ with cursor := { σ.cursor with stack := s } }) := by
    unfold Context.liftShuffle
    rw [run_get]
    cases shuffle _ op σ.cursor.stack <;> rfl
  refine ⟨fun ws hws hwhole => ?_, fun hnone => ⟨_, rfl, rfl, by rw [hrun, shuffle_eq_none hnone]; rfl⟩⟩
  obtain ⟨t, ht⟩ := hwhole
  obtain ⟨u, l, below, hs, rfl, hu, hl, hshuffle⟩ := shuffle_of_permute (hws.trans (congrArg some ht.symm))
  exact ⟨u, l, below, hs, hu, hl, ht, by rw [hrun, hshuffle]; rfl⟩

/-- Two narrow values are copied below a wide one. -/
theorem mixedStack_shuffled : ∃ (σ : State) (ws : List (StackEntry × Bool)),
    StackOp.dup2X2.permute (stackWords σ.cursor.stack) = some ws ∧ AreWhole ws ∧
    ((Context.liftShuffle .dup2X2).run σ).1 = .ok () ∧ stackWords ((Context.liftShuffle .dup2X2).run σ).2.cursor.stack = ws := by
  let narrow : StackEntry := ⟨0, .i32⟩
  let wide : StackEntry := ⟨1, .i64⟩
  let σ : State := { builder := .new [], cursor := { stack := [narrow, narrow, wide, wide] } }
  have hwhole : AreWhole (stackWords [narrow, narrow, wide, narrow, narrow, wide]) := ⟨_, rfl⟩
  obtain ⟨u, l, below, -, -, -, hws, hrun⟩ := (liftShuffle_words .dup2X2 σ).1 _ rfl hwhole
  exact ⟨σ, _, rfl, hwhole, by rw [hrun], by rw [hrun, hws]⟩

end Lift
end Bytelift
