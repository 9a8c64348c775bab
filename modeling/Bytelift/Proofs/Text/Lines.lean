import Bytelift.Number.Decimal
import Bytelift.Proofs.Text.Runes

/-!
# Lines of a text

A text of lines is read back line by line if none of the lines holds a line feed and none is too long. Only a carriage
return at the end of a line is lost. Numbers and quoted texts hold no line feed, whatever they stand for.

Results:
* `lines_unlines`: **the lines of a text are read back, but for a carriage return at their ends**.
-/

namespace Bytelift

open List Number

namespace Text

variable {t u : Text} {b : UInt8}

/-- A text without a line feed. -/
def OneLine (t : Text) : Prop := 10 ∉ t

instance (t : Text) : Decidable (OneLine t) := inferInstanceAs (Decidable (10 ∉ t))

@[simp] theorem oneLine_nil : OneLine [] := not_mem_nil

@[simp] theorem oneLine_append : OneLine (t ++ u) ↔ OneLine t ∧ OneLine u := by
  simp [OneLine]

@[simp] theorem oneLine_cons : OneLine (b :: t) ↔ b ≠ 10 ∧ OneLine t := by
  simp [OneLine, eq_comm]

theorem OneLine.of_subset (h : OneLine u) (ht : t ⊆ u) : OneLine t := fun hm => h (ht hm)

theorem OneLine.drop (h : OneLine t) (n : Nat) : OneLine (t.drop n) := h.of_subset (drop_subset n t)

theorem OneLine.trimSpace (h : OneLine t) : OneLine t.trimSpace := h.of_subset (trimSpace_isInfix t).subset

theorem notMem_join {sep : Text} (hsep : b ∉ sep) {ts : List Text} (h : ∀ t ∈ ts, b ∉ t) : b ∉ join sep ts := by
  fun_induction join sep ts with
  | case1 => exact not_mem_nil
  | case2 t => exact h t mem_cons_self
  | case3 t ts hne ih =>
    obtain ⟨ht, hts⟩ := forall_mem_cons.1 h
    simp only [mem_append, not_or]
    exact ⟨⟨ht, hsep⟩, ih hts⟩

theorem oneLine_join {sep : Text} (hsep : OneLine sep) {ts : List Text} (h : ∀ t ∈ ts, OneLine t) : OneLine (join sep ts) :=
  notMem_join hsep h

/-! ## Numbers -/

theorem toNat_byte_of_isDigit {c : Char} (h : c.isDigit = true) : (byte c).toNat = c.toNat ∧ 48 ≤ c.toNat ∧ c.toNat ≤ 57 := by
  have hc : 48 ≤ c.toNat ∧ c.toNat ≤ 57 := Char.isDigit_iff_toNat.1 h
  refine ⟨?_, hc⟩
  unfold byte
  simp only [Nat.toUInt8_eq, UInt8.toNat_ofNat']
  omega

theorem isDigit_of_mem_ofNat {n : Nat} (h : b ∈ ofNat n) : isDigit b = true := by
  obtain ⟨c, hc, rfl⟩ := mem_map.1 h
  obtain ⟨heq, hlo, hhi⟩ := toNat_byte_of_isDigit (Nat.isDigit_of_mem_toDigits (by decide) (by decide) hc)
  simp only [isDigit, Bool.and_eq_true, decide_eq_true_eq, UInt8.le_iff_toNat_le, heq]
  exact ⟨hlo, hhi⟩

theorem ofNat_ne_nil (n : Nat) : ofNat n ≠ [] := by
  simp [ofNat, Nat.toDigits_ne_nil]

/-- **The digits of a number give the number.** -/
theorem value_ofNat (n : Nat) : (ofNat n).foldl (fun n b => n * 10 + (b.toNat - 48)) 0 = n := by
  conv_rhs => rw [← Nat.ofDigitChars_toDigits (b := 10) (n := n) (by decide) (by decide)]
  unfold ofNat Nat.ofDigitChars
  rw [foldl_map]
  refine foldl_ext _ _ _ fun k c hc => ?_
  rw [(toNat_byte_of_isDigit (Nat.isDigit_of_mem_toDigits (by decide) (by decide) hc)).1, Nat.mul_comm]
  rfl

theorem ofNat_injective {n n' : Nat} (h : ofNat n = ofNat n') : n = n' := by
  rw [← value_ofNat n, h, value_ofNat]

theorem notMem_ofNat (hb : isDigit b = false) (n : Nat) : b ∉ ofNat n := fun h => by
  rw [isDigit_of_mem_ofNat h] at hb
  cases hb

theorem ofInt_ne_nil (n : Int) : ofInt n ≠ [] := by
  cases n with
  | ofNat n => exact ofNat_ne_nil n
  | negSucc n => exact cons_ne_nil _ _

theorem notMem_ofInt (hb : isDigit b = false) (hm : b ≠ byte '-') (n : Int) : b ∉ ofInt n := by
  cases n with
  | ofNat n => exact notMem_ofNat hb n
  | negSucc n => exact fun h => (mem_cons.1 h).elim hm (notMem_ofNat hb _)

theorem ofInt_injective {a b : Int} (h : ofInt a = ofInt b) : a = b := by
  cases a with
  | ofNat a =>
    cases b with
    | ofNat b => rw [ofNat_injective h]
    | negSucc b =>
      have h : ofNat a = byte '-' :: ofNat (b + 1) := h
      exact absurd (h ▸ mem_cons_self) (notMem_ofNat rfl a)
  | negSucc a =>
    cases b with
    | ofNat b =>
      have h : byte '-' :: ofNat (a + 1) = ofNat b := h
      exact absurd (h ▸ mem_cons_self) (notMem_ofNat rfl b)
    | negSucc b =>
      have h := ofNat_injective (List.cons.inj h).2
      rw [Nat.succ.inj h]

@[simp] theorem oneLine_ofInt (n : Int) : OneLine (ofInt n) := notMem_ofInt rfl (by decide) n

@[simp] theorem oneLine_ofNat (n : Nat) : OneLine (ofNat n) := oneLine_ofInt n

/-- The bytes that written numbers are made of. -/
def isNumeral (b : UInt8) : Bool := Number.isDigit b || b == byte '.' || b == byte 'e' || b == byte '+' || b == byte '-'

theorem isNumeral_of_isDigit (h : isDigit b = true) : isNumeral b = true := by simp [isNumeral, h]

theorem isNumeral_fractionText (h : ∀ b ∈ t, isNumeral b = true) : ∀ b ∈ fractionText t, isNumeral b = true := by
  unfold fractionText
  split
  · exact forall_mem_nil _
  · exact forall_mem_append.2 ⟨all_eq_true.1 rfl, h⟩

/-- A number is written with digits and the marks of numbers. -/
theorem isNumeral_layout (h : ∀ b ∈ t, isNumeral b = true) (first : Int) :
    ∀ b ∈ layout t first, isNumeral b = true := by
  have hzeros (n : Nat) : ∀ b ∈ replicate n (byte '0'), isNumeral b = true := fun b hb => by
    obtain rfl := eq_of_mem_replicate hb
    decide
  have hdrop (n : Nat) := isNumeral_fractionText fun b hb => h b (mem_of_mem_drop (i := n) hb)
  unfold layout
  split
  · have hexponent : ∀ b ∈ exponentText first, isNumeral b = true := by
      unfold exponentText
      simp only [forall_mem_append]
      refine ⟨⟨?_, hzeros _⟩, fun b hb => isNumeral_of_isDigit (isDigit_of_mem_ofNat hb)⟩
      split <;> exact all_eq_true.1 rfl
    simp only [forall_mem_append]
    exact ⟨⟨⟨fun b hb => h b (mem_of_mem_take hb), hdrop 1⟩, all_eq_true.1 rfl⟩, hexponent⟩
  · split
    · simp only [forall_mem_append]
      exact ⟨⟨all_eq_true.1 rfl, hzeros _⟩, h⟩
    · simp only [forall_mem_append]
      exact ⟨⟨fun b hb => h b (mem_of_mem_take hb), hzeros _⟩, hdrop _⟩

theorem isDigit_of_mem_decimalText {d : Decimal} (h : b ∈ d.text) : isDigit b = true :=
  isDigit_of_mem_ofNat (mem_reverse.1 ((dropWhile_sublist _).subset (mem_reverse.1 h)))

theorem isNumeral_decimalText (d : Decimal) : ∀ b ∈ d.text, isNumeral b = true := fun _ h =>
  isNumeral_of_isDigit (isDigit_of_mem_decimalText h)

theorem oneLine_floatText (x : Double) : OneLine (floatText x) := by
  unfold floatText
  extract_lets sign
  have hsign : OneLine sign := by
    unfold sign
    split <;> decide
  split
  · decide
  split
  · split <;> decide
  · split
    · exact oneLine_append.2 ⟨hsign, by decide⟩
    · refine oneLine_append.2 ⟨hsign, fun hm => ?_⟩
      exact absurd (isNumeral_layout (isNumeral_decimalText _) _ _ hm) (by decide)

/-! ## Quoted texts -/

/-- A text whose bytes neither end a line nor mean anything between double quotes. -/
def Bare (t : Text) : Prop := ∀ b ∈ t, b ≠ 10 ∧ b ≠ 34 ∧ b ≠ 92

theorem bare_hexFixed (width n : Nat) : Bare (hexFixed width n) := by
  intro b hb
  obtain ⟨k, -, rfl⟩ := mem_map.1 hb
  have hdigit : ∀ d < 16, hexDigit d ≠ 10 ∧ hexDigit d ≠ 34 ∧ hexDigit d ≠ 92 := by decide
  exact hdigit _ (Nat.mod_lt _ (by decide))

/-- A rune is written as an escape, or as it is. -/
theorem escapeRune_cases {r : Rune} (h : r ∈ runes t) :
    (∃ b u, escapeRune '"' r = 92 :: b :: u ∧ b ≠ 10 ∧ Bare u) ∨ Bare (escapeRune '"' r) := by
  cases r with
  | invalid b => exact .inl ⟨_, _, rfl, by decide, bare_hexFixed 2 _⟩
  | valid c bytes =>
    have hlow : ∀ x ∈ bytes, x < 0x80 → c = x.toNat := by
      intro x hx hlt
      rcases bytes_of_mem_runes h with ⟨b, -, heq⟩ | hhigh
      · obtain ⟨rfl, rfl⟩ := Rune.valid.inj heq
        rw [mem_singleton.1 hx]
      · exact absurd hlt (UInt8.not_lt.2 (hhigh x hx))
    dsimp only [escapeRune, escapeCode]
    split
    · rename_i hc
      exact .inl ⟨_, [], rfl, by rcases hc with rfl | rfl <;> decide, nofun⟩
    rename_i hmark
    split
    · rename_i hprint
      refine .inr fun x hx => ⟨?_, ?_, ?_⟩ <;> rintro rfl
      · rw [hlow _ hx (by decide)] at hprint
        exact absurd hprint (by decide +kernel)
      · exact hmark (.inl (hlow _ hx (by decide)))
      · exact hmark (.inr (hlow _ hx (by decide)))
    split
    · rename_i l hl
      refine .inl ⟨l, [], rfl, ?_, nofun⟩
      unfold escapeLetter? at hl
      split at hl <;> cases hl <;> decide
    split
    · exact .inl ⟨_, _, rfl, by decide, bare_hexFixed _ _⟩
    split
    · exact .inl ⟨_, _, rfl, by decide, bare_hexFixed _ _⟩
    · exact .inl ⟨_, _, rfl, by decide, bare_hexFixed _ _⟩

/-- **A quoted text stands on one line.** -/
theorem oneLine_quote (t : Text) : OneLine t.quote := by
  refine oneLine_append.2 ⟨oneLine_append.2 ⟨by decide, fun h => ?_⟩, by decide⟩
  obtain ⟨r, hr, hmem⟩ := mem_flatMap.1 h
  rcases escapeRune_cases hr with ⟨b, u, heq, hb, hu⟩ | hbare
  · rw [heq] at hmem
    exact oneLine_cons.2 ⟨by decide, oneLine_cons.2 ⟨hb, fun hm => (hu _ hm).1 rfl⟩⟩ hmem
  · exact (hbare _ hmem).1 rfl

/-! ## Lines -/

/-- A line without a carriage return at its end. -/
def chomp (line : Text) : Text := finishLine line.reverse

theorem chomp_concat (t : Text) (h : b ≠ 13) : chomp (t ++ [b]) = t ++ [b] := by
  unfold chomp finishLine
  rw [reverse_append, reverse_singleton, singleton_append]
  split
  · rename_i heq
    cases heq
    exact absurd rfl h
  · rw [reverse_cons, reverse_reverse]

theorem chomp_cons (t : Text) (h : b ≠ 13) : chomp (b :: t) = b :: chomp t := by
  obtain rfl | ⟨u, c, rfl⟩ := eq_nil_or_concat t
  · exact chomp_concat [] h
  by_cases hc : c = 13
  · subst hc
    simp [chomp, finishLine]
  · rw [concat_eq_append, ← cons_append, chomp_concat _ hc, chomp_concat _ hc]
    rfl

theorem chomp_append {p : Text} (h : 13 ∉ p) (t : Text) : chomp (p ++ t) = p ++ chomp t := by
  induction p with
  | nil => rfl
  | cons b p ih =>
    rw [mem_cons, not_or] at h
    rw [cons_append, chomp_cons _ (Ne.symm h.1), ih h.2, cons_append]

theorem chomp_isPrefix (t : Text) : chomp t <+: t := by
  unfold chomp finishLine
  split
  · rename_i r heq
    rw [reverse_eq_cons_iff.1 heq]
    exact prefix_append _ _
  · exact (reverse_reverse t).symm ▸ prefix_rfl

theorem trimSpace_chomp (t : Text) : (chomp t).trimSpace = t.trimSpace := by
  unfold chomp finishLine
  split
  · rename_i r heq
    rw [reverse_eq_cons_iff.1 heq]
    exact (trimSpace_concat (by decide) (by decide) _).symm
  · rw [reverse_reverse]

/-- The text of lines. -/
def unlines (ls : List Text) : Text := ls.flatMap fun l => l ++ [10]

theorem splitLines_line {l : Text} (h : OneLine l) (t rev : Text) (acc : List Text) :
    splitLines (l ++ 10 :: t) rev acc = splitLines t [] ((l.reverse ++ rev) :: acc) := by
  induction l generalizing rev with
  | nil => rfl
  | cons b l ih =>
    obtain ⟨hb, hl⟩ := oneLine_cons.1 h
    rw [cons_append, splitLines, if_neg hb, ih hl]
    simp

theorem splitLines_unlines {ls : List Text} (h : ∀ l ∈ ls, OneLine l) (acc : List Text) :
    splitLines (unlines ls) [] acc = acc.reverse ++ ls.map reverse := by
  induction ls generalizing acc with
  | nil => simp [unlines, splitLines]
  | cons l ls ih =>
    obtain ⟨hl, hls⟩ := forall_mem_cons.1 h
    have hcons : unlines (l :: ls) = l ++ 10 :: unlines ls := by simp [unlines]
    rw [hcons, splitLines_line hl, ih hls]
    simp

/-- **The lines of a text are read back, but for a carriage return at their ends.** -/
theorem lines_unlines {ls : List Text} (h : ∀ l ∈ ls, OneLine l) (hlong : (lines (unlines ls)).tooLong = false) :
    (lines (unlines ls)).lines = ls.map chomp := by
  unfold lines at hlong ⊢
  rw [splitLines_unlines h, reverse_nil, nil_append] at hlong ⊢
  have hfit : ((ls.map reverse).takeWhile (·.length < lineLimit)).length = (ls.map reverse).length :=
    Nat.le_antisymm (takeWhile_sublist _).length_le (by simpa using hlong)
  have hall : (ls.map reverse).takeWhile (·.length < lineLimit) = ls.map reverse :=
    (takeWhile_sublist _).eq_of_length hfit
  dsimp only
  rw [hall, map_map]
  rfl

theorem oneLine_splitLines {rev : Text} {acc : List Text} (hrev : OneLine rev) (hacc : ∀ l ∈ acc, OneLine l) :
    ∀ l ∈ splitLines t rev acc, OneLine l := by
  fun_induction splitLines t rev acc with
  | case1 acc => exact fun l hl => hacc l (mem_reverse.1 hl)
  | case2 rev acc _ => exact fun l hl => forall_mem_cons.2 ⟨hrev, hacc⟩ l (mem_reverse.1 hl)
  | case3 _ rev acc ih => exact ih oneLine_nil (forall_mem_cons.2 ⟨hrev, hacc⟩)
  | case4 b _ rev acc hb ih => exact ih (oneLine_cons.2 ⟨hb, hrev⟩) hacc

theorem oneLine_of_mem_lines {l : Text} (h : l ∈ (lines t).lines) : OneLine l := by
  obtain ⟨rev, hrev, rfl⟩ := mem_map.1 h
  have hline : OneLine rev :=
    oneLine_splitLines oneLine_nil (by simp) rev ((takeWhile_sublist _).subset hrev)
  rw [show finishLine rev = chomp rev.reverse by rw [chomp, reverse_reverse]]
  exact hline.of_subset fun b hb => mem_reverse.1 ((chomp_isPrefix rev.reverse).subset hb)

theorem OneLine.cutAt {x y : Text} {c : UInt8} (h : OneLine t) (hcut : cutAt c t = some (x, y)) : OneLine x ∧ OneLine y := by
  unfold Text.cutAt at hcut
  split at hcut
  · cases hcut
  rename_i after heq
  obtain ⟨rfl, rfl⟩ := Prod.mk.inj (Option.some.inj hcut)
  refine ⟨h.of_subset (takeWhile_sublist _).subset, h.of_subset fun b hb => ?_⟩
  refine (dropWhile_sublist (· != c)).subset ?_
  rw [heq]
  exact mem_cons_of_mem _ hb

theorem OneLine.reverse (h : OneLine t) : OneLine t.reverse := h.of_subset fun _ hb => mem_reverse.1 hb

theorem OneLine.cutAtLast {x y : Text} {c : UInt8} (h : OneLine t) (hcut : cutAtLast c t = some (x, y)) :
    OneLine x ∧ OneLine y := by
  obtain ⟨⟨after, before⟩, hsplit, heq⟩ := Option.map_eq_some_iff.1 hcut
  obtain ⟨rfl, rfl⟩ := Prod.mk.inj heq
  obtain ⟨hafter, hbefore⟩ := h.reverse.cutAt hsplit
  exact ⟨hbefore.reverse, hafter.reverse⟩

/-- A text is set apart from one in front of it by a byte that does not occur there. -/
theorem append_inj_of_head {b : UInt8} {l l' t t' : Text} (hl : b ∉ l) (hl' : b ∉ l')
    (ht : ∀ x ∈ t.head?, x = b) (ht' : ∀ x ∈ t'.head?, x = b) (h : l ++ t = l' ++ t') : l = l' ∧ t = t' := by
  induction l generalizing l' with
  | nil =>
    cases l' with
    | nil => exact ⟨rfl, h⟩
    | cons x l' =>
      have hx : x = b := ht x (by simp [show t = x :: (l' ++ t') from h])
      exact absurd (hx ▸ mem_cons_self) hl'
  | cons y l ih =>
    cases l' with
    | nil =>
      have hy : y = b := ht' y (by simp [show t' = y :: (l ++ t) from h.symm])
      exact absurd (hy ▸ mem_cons_self) hl
    | cons x l' =>
      obtain ⟨rfl, hrest⟩ := List.cons.inj h
      obtain ⟨rfl, rfl⟩ :=
        ih (fun hm => hl (mem_cons_of_mem _ hm)) (fun hm => hl' (mem_cons_of_mem _ hm)) hrest
      exact ⟨rfl, rfl⟩

theorem eq_of_append_cons {x y : Text} (hx : b ∉ x) (hy : b ∉ y) (h : x ++ b :: t = y ++ b :: u) : x = y ∧ t = u := by
  obtain ⟨rfl, htail⟩ := append_inj_of_head hx hy (by simp) (by simp) h
  exact ⟨rfl, (cons.inj htail).2⟩

/-- **Texts without the separator are read off a joined text.** -/
theorem join_injective {ts us : List Text} (hts : ∀ t ∈ ts, t ≠ [] ∧ b ∉ t) (hus : ∀ t ∈ us, t ≠ [] ∧ b ∉ t)
    (h : join [b] ts = join [b] us) : ts = us := by
  have further (t u : Text) (us : List Text) : join [b] (t :: u :: us) = t ++ b :: join [b] (u :: us) := by
    simp [join]
  induction ts generalizing us with
  | nil =>
    match us with
    | [] => rfl
    | [u] => exact absurd h.symm (hus u (mem_singleton.2 rfl)).1
    | u :: v :: us =>
      rw [further] at h
      exact absurd h.symm (by simp [join])
  | cons t ts ih =>
    obtain ⟨⟨htn, htb⟩, hts⟩ := forall_mem_cons.1 hts
    match ts, us with
    | [], [] => exact absurd h htn
    | [], [u] => exact congrArg (fun t => [t]) h
    | [], u :: v :: us =>
      have h : t = join [b] (u :: v :: us) := h
      rw [further] at h
      exact absurd (h ▸ mem_append_right u mem_cons_self) htb
    | t' :: ts, [] =>
      rw [further] at h
      exact absurd h (by simp [join])
    | t' :: ts, [u] =>
      have h : join [b] (t :: t' :: ts) = u := h
      rw [further] at h
      exact absurd (h ▸ mem_append_right t mem_cons_self) (hus u (mem_singleton.2 rfl)).2
    | t' :: ts, u :: v :: us =>
      obtain ⟨⟨-, hub⟩, hus'⟩ := forall_mem_cons.1 hus
      rw [further, further] at h
      obtain ⟨rfl, htail⟩ := eq_of_append_cons htb hub h
      rw [ih hts hus' htail]

end Text

end Bytelift
