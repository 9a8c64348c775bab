import Bytelift.Proofs.Source.Spelling
import Mathlib.Algebra.GroupWithZero.Nat

/-!
# Words and tokens

A line that is made of words with blanks between them is read back as these words, if each word is one token by
itself. A text is one token if the tokenizer gives it back as it is: a quoted text is one, and a text without
separators and comment signs.

Results:
* `tokenize_join`: **words with blanks between them are the tokens of their line**;
* `tokenize_stable`: **a line keeps its tokens when blanks are put between them and a comment behind them.**
-/

namespace Bytelift.Source

open List
open Text (byte)

variable {st : LexState} {t w : Text} {acc ts : List Text}

theorem tokensFrom_append (st : LexState) (t : Text) (acc more : List Text) :
    tokensFrom st t (acc ++ more) = (tokensFrom st t acc).map (more.reverse ++ ·) := by
  fun_induction tokensFrom st t acc with
  | case1 acc | case2 acc rev | case3 | case4 | case5 t acc | case9 t acc rev => simp [tokensFrom]
  | case6 b t acc h h' ih => simpa only [tokensFrom, h, h', if_true, if_false] using ih
  | case7 t acc h h' ih => simpa only [tokensFrom, h, h', if_true, if_false, Bool.false_eq_true] using ih
  | case8 b t acc h h' h'' ih => simpa only [tokensFrom, h, h', h'', if_false, Bool.false_eq_true] using ih
  | case10 b t acc rev h h' ih => simpa only [tokensFrom, h, h', if_true, if_false, cons_append] using ih
  | case11 b t acc rev h h' ih => simpa only [tokensFrom, h, h', if_false, Bool.false_eq_true] using ih
  | case12 t acc rev ih => simpa only [tokensFrom, if_true, cons_append] using ih
  | case13 t acc rev h ih => simpa only [tokensFrom, h, if_true, if_false] using ih
  | case14 b t acc rev h h' ih => simpa only [tokensFrom, h, h', if_false] using ih
  | case15 b t acc rev ih => simpa only [tokensFrom] using ih

/-- How much has been read. -/
def weight (ts : List Text) : Nat := (ts.map List.length).sum

theorem weight_reverse (ts : List Text) : weight ts.reverse = weight ts := by
  simp [weight, map_reverse, sum_reverse]

theorem weight_cons (t : Text) (ts : List Text) : weight (t :: ts) = t.length + weight ts := by
  simp [weight]

/-- A blank behind a text ends its last token, or the tokens hold less than the text. -/
def Ends (st : LexState) (t : Text) (acc ts : List Text) : Prop :=
  (∀ rest, tokensFrom st (t ++ byte ' ' :: rest) acc = tokensFrom .between rest ts.reverse) ∨
    weight ts < weight acc + st.rev.length + t.length

/-- Reading on loses nothing that has been read. -/
theorem Ends.cons {st' : LexState} {b : UInt8} {acc' : List Text} (h : Ends st' t acc' ts)
    (hread : ∀ u, tokensFrom st (b :: u) acc = tokensFrom st' u acc')
    (hle : weight acc' + st'.rev.length ≤ weight acc + st.rev.length + 1) : Ends st (b :: t) acc ts := by
  refine h.imp (fun hl rest => ?_) fun hr => ?_
  · rw [cons_append, hread, hl]
  · rw [length_cons]
    omega

/-- A blank behind a text ends its last token, unless the text holds a comment. The tokens of a text with a comment
hold less than the text. -/
theorem tokensFrom_blank (h : tokensFrom st t acc = some ts) : Ends st t acc ts := by
  have hsep : isSeparator (byte ' ') = true := by decide
  have hcomment : ¬ byte ' ' = byte '#' := by decide
  have hclosed (acc : List Text) (rev : Text) : weight (rev.reverse :: acc) ≤ weight acc + rev.length := by
    rw [weight_cons, length_reverse]
    exact Nat.le_of_eq (Nat.add_comm _ _)
  fun_induction tokensFrom st t acc with
  | case1 acc | case2 acc rev =>
    cases h
    exact .inl fun rest => by simp [tokensFrom, hsep, hcomment]
  | case3 => cases h
  | case4 => cases h
  | case5 t acc =>
    cases h
    exact .inr (by simp [weight_reverse, LexState.rev])
  | case6 b t acc hb hb' ih => exact (ih h).cons (fun u => by rw [tokensFrom, if_neg hb, if_pos hb']) (by simp)
  | case7 t acc hb hb' ih => exact (ih h).cons (fun u => by rw [tokensFrom, if_neg hb, if_neg hb', if_pos rfl]) (by simp [LexState.rev])
  | case8 b t acc hb hb' hb'' ih =>
    exact (ih h).cons (fun u => by rw [tokensFrom, if_neg hb, if_neg hb', if_neg hb'']) (by simp [LexState.rev])
  | case9 t acc rev =>
    cases h
    refine .inr (Nat.lt_of_le_of_lt ?_ (Nat.lt_add_of_pos_right (Nat.succ_pos _)))
    rw [weight_reverse]
    exact hclosed _ _
  | case10 t acc rev b hb hb' ih => exact (ih h).cons (fun u => by rw [tokensFrom, if_neg hb, if_pos hb']) (Nat.le_succ_of_le (hclosed _ _))
  | case11 t acc rev b hb hb' ih | case14 acc rev b t hb hb' ih =>
    exact (ih h).cons (fun u => by rw [tokensFrom, if_neg hb, if_neg hb']) (Nat.le_refl _)
  | case12 acc rev t ih => exact (ih h).cons (fun u => by rw [tokensFrom, if_pos rfl]) (hclosed _ _)
  | case13 acc rev t hb ih => exact (ih h).cons (fun u => by rw [tokensFrom, if_neg hb, if_pos rfl]) (Nat.le_refl _)
  | case15 acc rev b t ih => exact (ih h).cons (fun u => by rw [tokensFrom]) (Nat.le_refl _)

/-- A text is one token. -/
def IsToken (t : Text) : Prop := tokenize t = some [t]

instance (t : Text) : Decidable (IsToken t) := inferInstanceAs (Decidable (tokenize t = some [t]))

theorem IsToken.blank (h : IsToken w) (rest : Text) (acc : List Text) :
    tokensFrom .between (w ++ byte ' ' :: rest) acc = tokensFrom .between rest (w :: acc) := by
  rcases tokensFrom_blank h with hblank | hless
  · have hfront := tokensFrom_append .between (w ++ byte ' ' :: rest) [] acc
    have hnext := tokensFrom_append .between rest [w] acc
    rw [nil_append] at hfront
    rw [hfront, hblank, reverse_singleton, ← hnext]
    rfl
  · simp [weight, LexState.rev] at hless

theorem IsToken.last (h : IsToken w) (acc : List Text) : tokensFrom .between w acc = some (acc.reverse ++ [w]) := by
  have hfront := tokensFrom_append .between w [] acc
  rw [nil_append] at hfront
  rw [hfront, show tokensFrom .between w [] = some [w] from h]
  rfl

/-- **Words with blanks between them are the tokens of their line.** -/
theorem tokenize_join {ws : List Text} (h : ∀ w ∈ ws, IsToken w) : tokenize (Text.join " " ws) = some ws := by
  have hjoin (acc : List Text) : tokensFrom .between (Text.join " " ws) acc = some (acc.reverse ++ ws) := by
    induction ws generalizing acc with
    | nil => simp [Text.join, tokensFrom]
    | cons w ws ih =>
      obtain ⟨hw, hws⟩ := forall_mem_cons.1 h
      cases ws with
      | nil => exact hw.last acc
      | cons w' ws =>
        have hline : Text.join " " (w :: w' :: ws) = w ++ byte ' ' :: Text.join " " (w' :: ws) :=
          append_assoc w _ _
        rw [hline, hw.blank, ih hws]
        simp
  exact hjoin []

theorem tokenize_front (h : IsToken w) (rest : Text) :
    tokenize (w ++ byte ' ' :: rest) = (tokenize rest).map (w :: ·) := by
  unfold tokenize
  rw [h.blank]
  exact tokensFrom_append .between rest [] [w]

/-! ## Lines with the same tokens -/

variable {st' : LexState} {gap : Text} {b : UInt8} {acc' : List Text}

/-- A text is one token, and nothing in it would end it unless it is quoted. -/
def Lexeme (w : Text) : Prop := IsToken w ∧ (w.head? ≠ some (byte '"') → ∀ b ∈ w, endsWord b = false)

/-- The tokenizer comes to a state by reading a part of a token. -/
structure Begun (st : LexState) : Prop where
  start : ∀ v acc, tokensFrom .between (st.rev.reverse ++ v) acc = tokensFrom st v acc
  part : match st with
    | .between => True
    | .word rev => ∀ b ∈ rev, endsWord b = false
    | .quoted rev | .escaped rev => rev.getLast? = some (byte '"')

theorem begun_between : Begun .between := ⟨fun _ _ => rfl, trivial⟩

/-- A byte that belongs to a token takes the tokenizer to the next state. -/
theorem Begun.start_cons (h : Begun st) (hrev : st'.rev = b :: st.rev)
    (hread : ∀ v acc, tokensFrom st (b :: v) acc = tokensFrom st' v acc) (v : Text) (acc : List Text) :
    tokensFrom .between (st'.rev.reverse ++ v) acc = tokensFrom st' v acc := by
  rw [hrev, reverse_cons, append_assoc, singleton_append, h.start, hread]

theorem getLast?_cons_of_some {rev : Text} (h : rev.getLast? = some (byte '"')) : (b :: rev).getLast? = some (byte '"') := by
  simp [getLast?_cons, h]

theorem Begun.word {rev : Text} (h : Begun (.word rev)) : Lexeme rev.reverse := by
  refine ⟨?_, fun _ b hb => h.part b (mem_reverse.1 hb)⟩
  have hread := h.start [] []
  rw [append_nil] at hread
  exact hread

theorem Begun.quoted {rev : Text} (h : Begun (.quoted rev)) : Lexeme (byte '"' :: rev).reverse := by
  refine ⟨?_, fun hne => absurd ?_ hne⟩
  · rw [reverse_cons]
    exact (h.start [byte '"'] []).trans (by simp [tokensFrom])
  · rw [head?_reverse]
    exact getLast?_cons_of_some h.part

/-- **The tokens of a line are tokens by themselves.** -/
theorem tokensFrom_lexemes (h : tokensFrom st t acc = some ts) (hst : Begun st) (hacc : ∀ w ∈ acc, Lexeme w) :
    ∀ w ∈ ts, Lexeme w := by
  fun_induction tokensFrom st t acc with
  | case1 acc | case5 t acc =>
    cases h
    simpa only [mem_reverse] using hacc
  | case2 acc rev | case9 t acc rev =>
    cases h
    simpa only [mem_reverse] using forall_mem_cons.2 ⟨hst.word, hacc⟩
  | case3 | case4 => cases h
  | case6 b t acc hb hb' ih => exact ih h hst hacc
  | case7 t acc hb hb' ih =>
    refine ih h ⟨hst.start_cons rfl fun v acc => ?_, rfl⟩ hacc
    rw [tokensFrom, if_neg hb, if_neg hb', if_pos rfl]
  | case8 b t acc hb hb' hb'' ih =>
    refine ih h ⟨hst.start_cons rfl fun v acc => ?_, by simp [endsWord, hb, hb']⟩ hacc
    rw [tokensFrom, if_neg hb, if_neg hb', if_neg hb'']
  | case10 t acc rev b hb hb' ih => exact ih h begun_between (forall_mem_cons.2 ⟨hst.word, hacc⟩)
  | case11 t acc rev b hb hb' ih =>
    refine ih h ⟨hst.start_cons rfl fun v acc => ?_, forall_mem_cons.2 ⟨by simp [endsWord, hb, hb'], hst.part⟩⟩ hacc
    rw [tokensFrom, if_neg hb, if_neg hb']
  | case12 acc rev t ih => exact ih h begun_between (forall_mem_cons.2 ⟨hst.quoted, hacc⟩)
  | case13 acc rev t hb ih =>
    refine ih h ⟨hst.start_cons rfl fun v acc => ?_, getLast?_cons_of_some hst.part⟩ hacc
    rw [tokensFrom, if_neg hb, if_pos rfl]
  | case14 acc rev b t hb hb' ih =>
    refine ih h ⟨hst.start_cons rfl fun v acc => ?_, getLast?_cons_of_some hst.part⟩ hacc
    rw [tokensFrom, if_neg hb, if_neg hb']
  | case15 acc rev b t ih =>
    refine ih h ⟨hst.start_cons rfl fun v acc => ?_, getLast?_cons_of_some hst.part⟩ hacc
    rw [tokensFrom]

/-! ## Behind a text -/

/-- Nothing behind a text matters, or whatever ends a word ends its last token. -/
def Closed (st : LexState) (t : Text) (acc ts : List Text) : Prop :=
  (∀ u, tokensFrom st (t ++ u) acc = some ts) ∨
    ∀ b u, endsWord b = true → tokensFrom st (t ++ b :: u) acc = tokensFrom .between (b :: u) ts.reverse

theorem Closed.cons (h : Closed st' t acc' ts) (hread : ∀ u, tokensFrom st (b :: u) acc = tokensFrom st' u acc') :
    Closed st (b :: t) acc ts :=
  h.imp (fun hall u => (hread _).trans (hall u)) fun hends c u hc => (hread _).trans (hends c u hc)

theorem tokensFrom_closed (h : tokensFrom st t acc = some ts) : Closed st t acc ts := by
  fun_induction tokensFrom st t acc with
  | case1 acc =>
    cases h
    exact .inr fun b u _ => by simp
  | case2 acc rev =>
    cases h
    refine .inr fun b u hb => ?_
    simp only [endsWord, Bool.or_eq_true, beq_iff_eq] at hb
    by_cases hsign : b = byte '#'
    · simp [tokensFrom, hsign]
    · simp [tokensFrom, hsign, hb.resolve_right hsign]
  | case3 | case4 => cases h
  | case5 t acc | case9 t acc rev =>
    cases h
    exact .inl fun u => by simp [tokensFrom]
  | case6 b t acc hb hb' ih | case10 t acc rev b hb hb' ih => exact (ih h).cons fun u => by rw [tokensFrom, if_neg hb, if_pos hb']
  | case7 t acc hb hb' ih => exact (ih h).cons fun u => by rw [tokensFrom, if_neg hb, if_neg hb', if_pos rfl]
  | case8 b t acc hb hb' hb'' ih => exact (ih h).cons fun u => by rw [tokensFrom, if_neg hb, if_neg hb', if_neg hb'']
  | case11 t acc rev b hb hb' ih | case14 acc rev b t hb hb' ih => exact (ih h).cons fun u => by rw [tokensFrom, if_neg hb, if_neg hb']
  | case12 acc rev t ih => exact (ih h).cons fun u => by rw [tokensFrom, if_pos rfl]
  | case13 acc rev t hb ih => exact (ih h).cons fun u => by rw [tokensFrom, if_neg hb, if_pos rfl]
  | case15 acc rev b t ih => exact (ih h).cons fun u => by rw [tokensFrom]

theorem tokensFrom_blanks (h : ∀ b ∈ gap, isSeparator b = true) :
    tokensFrom .between (gap ++ t) acc = tokensFrom .between t acc := by
  induction gap with
  | nil => rfl
  | cons b gap ih =>
    obtain ⟨hb, h⟩ := forall_mem_cons.1 h
    have hne : b ≠ byte '#' := by
      rintro rfl
      exact absurd hb (by decide)
    rw [cons_append, tokensFrom, if_neg hne, if_pos hb, ih h]

/-- **A line keeps its tokens when blanks are put between them and a comment behind them**, and when all that is not a token is
replaced by single blanks. A place is between tokens if the tokens in front of it and those behind it are the tokens of the line. -/
theorem tokenize_stable {line : Text} (h : tokenize line = some ts) :
    (∀ t ∈ ts, t ≠ [] ∧ (t.head? ≠ some (byte '"') →
      ∀ b ∈ t, b ≠ byte ' ' ∧ b ≠ byte '\t' ∧ b ≠ byte ',' ∧ b ≠ byte '#')) ∧
    tokenize (Text.join " " ts) = some ts ∧ (∀ c, tokenize (line ++ byte '#' :: c) = some ts) ∧
    ∀ front back ts₁ ts₂, line = front ++ back → tokenize front = some ts₁ → tokenize back = some ts₂ → ts = ts₁ ++ ts₂ →
      ∀ gap, (∀ b ∈ gap, b = byte ' ' ∨ b = byte '\t' ∨ b = byte ',') → tokenize (front ++ (gap ++ back)) = some ts := by
  have hall := tokensFrom_lexemes h begun_between (by simp)
  refine ⟨fun t ht => ⟨?_, fun hplain b hb => ?_⟩, tokenize_join fun w hw => (hall w hw).1, fun c => ?_, ?_⟩
  · rintro rfl
    cases (hall [] ht).1
  · simpa only [endsWord, isSeparator, Bool.or_eq_false_iff, beq_eq_false_iff_ne, and_assoc] using (hall t ht).2 hplain b hb
  · rcases tokensFrom_closed h with hrest | hends
    · exact hrest _
    · exact (hends _ c (by decide)).trans (by simp [tokensFrom])
  · rintro front back ts₁ ts₂ rfl hfront hback rfl gap hgap
    replace hgap : ∀ b ∈ gap, isSeparator b = true := fun b hb => by simpa [isSeparator, or_assoc] using hgap b hb
    have hrest := tokensFrom_append .between back [] ts₁.reverse
    rw [show tokensFrom .between back [] = some ts₂ from hback, reverse_reverse, nil_append] at hrest
    cases gap with
    | nil => exact h
    | cons b gap =>
      rcases tokensFrom_closed hfront with hsame | hends
      · exact (hsame _).trans ((hsame _).symm.trans h)
      · have hb : endsWord b = true := by simp [endsWord, hgap b mem_cons_self]
        exact (hends b (gap ++ back) hb).trans ((tokensFrom_blanks hgap).trans hrest)

/-- A quoted token with a comment sign in it and another token right behind it. -/
theorem tokenize_stable_touching :
    tokenize "\"#\"x" = some [Text.ofString "\"#\"", Text.ofString "x"] ∧ tokenize "\"#\" ,x" = some [Text.ofString "\"#\"", Text.ofString "x"] := by
  have h : tokenize "\"#\"x" = some [Text.ofString "\"#\"", Text.ofString "x"] := by decide
  exact ⟨h, (tokenize_stable h).2.2.2 (Text.ofString "\"#\"") (Text.ofString "x") [Text.ofString "\"#\""] [Text.ofString "x"] rfl (by decide)
    (by decide) rfl [byte ' ', byte ','] (by simp)⟩

end Bytelift.Source
