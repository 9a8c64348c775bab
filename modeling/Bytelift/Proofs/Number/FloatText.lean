import Bytelift.Proofs.Number.Shortest
import Bytelift.Proofs.Text.Lines
import Bytelift.Proofs.Traversals
import Mathlib.Data.List.Induction
import Mathlib.Data.List.TakeWhile

/-!
# Texts of doubles

A finite double is written as the shortest decimal in its rounding interval, without zeros at the end of its digits,
with or without an exponent. Whatever the form, the digits and the place of the first one can be read off. So the text
gives a rational in the interval of the double, and no other double of that sign is written so.

Results:
* `floatText_injective`: **two doubles with one text are equal, unless they are both no numbers.**
-/

namespace Bytelift.Number

open List
open Text (byte ofString ofNat)

variable {s t u : Text} {n : Nat} {first : Int} {b : UInt8}

/-! ## Digits -/

/-- The number that digits write. -/
def digitsValue (t : Text) : Nat := t.foldl (fun n b => n * 10 + (b.toNat - 48)) 0

theorem digitsValue_zeros (t : Text) (n : Nat) : digitsValue (t ++ replicate n (byte '0')) = digitsValue t * 10 ^ n := by
  induction n with
  | zero => simp
  | succ n ih =>
    rw [replicate_succ', ← append_assoc, digitsValue, foldl_concat, ← digitsValue, ih, Nat.pow_succ, ← Nat.mul_assoc]
    rfl

theorem digitsValue_zeros_left (n : Nat) (t : Text) : digitsValue (replicate n (byte '0') ++ t) = digitsValue t := by
  induction n with
  | zero => rfl
  | succ n ih => exact ih

/-- Digits without a zero at either end. -/
structure Significant (s : Text) : Prop where
  digits : ∀ b ∈ s, isDigit b = true
  head : ∀ b ∈ s.head?, b ≠ byte '0'
  last : ∀ b ∈ s.getLast?, b ≠ byte '0'
  nonempty : s ≠ []

/-- A text without zeros at its ends. -/
def stripZeros (t : Text) : Text := ((t.dropWhile (· == byte '0')).reverse.dropWhile (· == byte '0')).reverse

theorem dropWhile_zeros (n : Nat) (h : ∀ b ∈ t.head?, b ≠ byte '0') :
    (replicate n (byte '0') ++ t).dropWhile (· == byte '0') = t := by
  rw [dropWhile_append_of_pos fun b hb => by simpa using eq_of_mem_replicate hb]
  cases t with
  | nil => rfl
  | cons b t => exact dropWhile_cons_of_neg (by simpa using h b rfl)

theorem takeWhile_zeros (n : Nat) (h : ∀ b ∈ t.head?, b ≠ byte '0') :
    (replicate n (byte '0') ++ t).takeWhile (· == byte '0') = replicate n (byte '0') :=
  takeWhile_append_of_head (by simp) (by simpa using h)

theorem stripZeros_zeros (h : Significant s) (m n : Nat) :
    stripZeros (replicate m (byte '0') ++ s ++ replicate n (byte '0')) = s := by
  have hhead : ∀ b ∈ (s ++ replicate n (byte '0')).head?, b ≠ byte '0' := by
    rw [head?_append_of_ne_nil _ h.nonempty]
    exact h.head
  have hlast : ∀ b ∈ s.reverse.head?, b ≠ byte '0' := by
    rw [head?_reverse]
    exact h.last
  rw [stripZeros, append_assoc, dropWhile_zeros m hhead, reverse_append, reverse_replicate,
    dropWhile_zeros n hlast, reverse_reverse]

/-! ## Decimals -/

theorem digitsValue_ofNat (n : Nat) : digitsValue (ofNat n) = n := Text.value_ofNat n

theorem length_ofNat (n : Nat) : (ofNat n).length = digitCount n := length_map ..

theorem digitsValue_lt (h : ∀ b ∈ t, isDigit b = true) : digitsValue t < 10 ^ t.length := by
  induction t using reverseRecOn with
  | nil => decide
  | append_singleton t b ih =>
    obtain ⟨ht, hb⟩ := forall_mem_append.1 h
    have hb := hb b (mem_singleton.2 rfl)
    simp only [isDigit, Bool.and_eq_true, decide_eq_true_eq, UInt8.le_iff_toNat_le, UInt8.reduceToNat] at hb
    have ih := ih ht
    rw [digitsValue, foldl_concat, ← digitsValue, length_append, length_singleton, Nat.pow_succ]
    omega

theorem ofNat_eq_text (d : Decimal) : ∃ z, ofNat d.digits = d.text ++ replicate z (byte '0') := by
  obtain ⟨z, hz⟩ : ∃ z, (ofNat d.digits).reverse.takeWhile (· == byte '0') = replicate z (byte '0') :=
    ⟨_, eq_replicate_of_mem fun b hb => by simpa using mem_takeWhile_imp hb⟩
  refine ⟨z, ?_⟩
  calc ofNat d.digits
      = ((ofNat d.digits).reverse.takeWhile (· == byte '0') ++
          (ofNat d.digits).reverse.dropWhile (· == byte '0')).reverse := by
        rw [takeWhile_append_dropWhile, reverse_reverse]
    _ = d.text ++ replicate z (byte '0') := by
        rw [reverse_append, hz, reverse_replicate, Decimal.text]

theorem head_ofNat (h : 0 < n) : ∀ b ∈ (ofNat n).head?, b ≠ byte '0' := by
  rintro b hb rfl
  obtain ⟨t, ht⟩ := head?_eq_some_iff.1 hb
  have hvalue : digitsValue t = n := by
    rw [← digitsValue_ofNat n, ht]
    exact (digitsValue_zeros_left 1 t).symm
  have hlt : digitsValue t < 10 ^ t.length :=
    digitsValue_lt fun b hb => Text.isDigit_of_mem_ofNat (ht ▸ mem_cons_of_mem _ hb)
  have hle := pow_digitCount_le h
  rw [← length_ofNat, ht, length_cons, Nat.add_sub_cancel] at hle
  omega

theorem significant_text {d : Decimal} (h : 0 < d.digits) : Significant d.text := by
  obtain ⟨z, hz⟩ := ofNat_eq_text d
  have hne : d.text ≠ [] := by
    intro hnil
    have hvalue := digitsValue_ofNat d.digits
    rw [hz, digitsValue_zeros, hnil] at hvalue
    simp [digitsValue] at hvalue
    omega
  refine ⟨fun b hb => Text.isDigit_of_mem_decimalText hb, ?_, fun b hb => ?_, hne⟩
  · have hhead := head_ofNat h
    rw [hz, head?_append_of_ne_nil _ hne] at hhead
    exact hhead
  · rw [Decimal.text, getLast?_reverse] at hb
    have hfirst := head?_dropWhile_not (· == byte '0') (ofNat d.digits).reverse
    rw [hb] at hfirst
    simpa using hfirst

/-- The number that digits write if the first one stands for `10 ^ first`. -/
def placed (s : Text) (first : Int) : ℚ := digitsValue s * 10 ^ (first + 1 - s.length)

/-- The value of a decimal by its text and the place of its first digit. -/
theorem value_eq (d : Decimal) : d.value = placed d.text ((digitCount d.digits : Int) - 1 + d.exponent) := by
  obtain ⟨z, hz⟩ := ofNat_eq_text d
  have hlength : digitCount d.digits = d.text.length + z := by
    rw [← length_ofNat, hz, length_append, length_replicate]
  have hdigits : d.digits = digitsValue d.text * 10 ^ z := by
    rw [← digitsValue_zeros, ← hz, digitsValue_ofNat]
  rw [Decimal.value, placed, hlength,
    show ((d.text.length + z : Nat) : Int) - 1 + d.exponent + 1 - d.text.length = z + d.exponent by push_cast; ring,
    zpow_add₀ (by norm_num), zpow_natCast, ← mul_assoc]
  congr 1
  exact_mod_cast hdigits

/-! ## Layouts -/

/-- The digits of a written number. -/
def significant (t : Text) : Text := stripZeros ((t.takeWhile (· != byte 'e')).filter (· != byte '.'))

/-- The number that an exponent writes. -/
def exponentValue (t : Text) : Int :=
  if t.head? = some (byte '-') then -(digitsValue t.tail : Int) else digitsValue t.tail

/-- The place of the first digit of a written number. -/
def firstPlace (t : Text) : Int :=
  if byte 'e' ∈ t then exponentValue ((t.dropWhile (· != byte 'e')).drop 1)
  else if t.head? = some (byte '0') then
    -(((t.filter (· != byte '.')).takeWhile (· == byte '0')).length : Int)
  else (t.takeWhile (· != byte '.')).length - 1

theorem exponentValue_exponentText (e : Int) : exponentValue (exponentText e) = e := by
  have hdigits : digitsValue (replicate (2 - (ofNat e.natAbs).length) (byte '0') ++ ofNat e.natAbs) = e.natAbs := by
    rw [digitsValue_zeros_left, digitsValue_ofNat]
  unfold exponentText exponentValue
  split
  · rw [append_assoc, singleton_append, head?_cons, if_pos rfl, tail_cons, hdigits]
    omega
  · rw [append_assoc, singleton_append, head?_cons, if_neg (by decide), tail_cons, hdigits]
    omega

theorem ne_of_isDigit {c : UInt8} (hb : isDigit b = true) (hc : isDigit c = false) : b ≠ c := by
  rintro rfl
  exact Bool.false_ne_true (hc.symm.trans hb)

theorem filter_point (h : ∀ b ∈ t, isDigit b = true) : t.filter (· != byte '.') = t :=
  filter_eq_self.2 fun b hb => bne_iff_ne.2 (ne_of_isDigit (h b hb) (by decide))

theorem filter_fractionText (h : ∀ b ∈ t, isDigit b = true) : (fractionText t).filter (· != byte '.') = t := by
  unfold fractionText
  split
  · rename_i hnil
    rw [isEmpty_iff.1 hnil]
    rfl
  · exact filter_point h

/-- A mark that digits are written without stands in no fraction. -/
theorem notMem_fractionText (h : ∀ b ∈ t, isDigit b = true) (hb : isDigit b = false) (hne : b ≠ byte '.') :
    b ∉ fractionText t := by
  unfold fractionText
  split
  · exact not_mem_nil
  · exact not_mem_append (fun hm => hne (mem_singleton.1 hm)) fun hm => ne_of_isDigit (h b hm) hb rfl

theorem bne_of_notMem {x : UInt8} (h : b ∉ t) (hx : x ∈ t) : (x != b) = true :=
  bne_iff_ne.2 fun he => h (he ▸ hx)

theorem takeWhile_before (h : b ∉ t) : (t ++ b :: u).takeWhile (· != b) = t := by
  rw [takeWhile_append_of_pos fun x hx => bne_of_notMem h hx, takeWhile_cons_of_neg (by simp), append_nil]

theorem dropWhile_before (h : b ∉ t) : (t ++ b :: u).dropWhile (· != b) = b :: u := by
  rw [dropWhile_append_of_pos fun x hx => bne_of_notMem h hx, dropWhile_cons_of_neg (by simp)]

theorem takeWhile_all (h : b ∉ t) : t.takeWhile (· != b) = t :=
  takeWhile_eq_self_iff.2 fun _ hx => bne_of_notMem h hx

theorem takeWhile_fraction (h : byte '.' ∉ t) : (t ++ fractionText u).takeWhile (· != byte '.') = t := by
  unfold fractionText
  split
  · rw [append_nil, takeWhile_all h]
  · exact takeWhile_before h

/-- The three forms of a number: with an exponent, below one, and with digits before the point. -/
inductive Form (s : Text) (first : Int) : Text → Prop
  | scientific : Form s first (s.take 1 ++ fractionText (s.drop 1) ++ byte 'e' :: exponentText first)
  | small (h : first < 0) : Form s first (byte '0' :: byte '.' :: (List.replicate ((-first).toNat - 1) (byte '0') ++ s))
  | plain (h : 0 ≤ first) : Form s first (s.take (first.toNat + 1) ++
      List.replicate (first.toNat + 1 - s.length) (byte '0') ++ fractionText (s.drop (first.toNat + 1)))

theorem form_layout (s : Text) (first : Int) : Form s first (layout s first) := by
  unfold layout
  split
  · rw [append_assoc]
    exact .scientific
  · split
    · rw [append_assoc]
      exact .small ‹_›
    · exact .plain (by omega)

namespace Significant

theorem digits_take (h : Significant s) (n : Nat) : ∀ b ∈ s.take n, isDigit b = true :=
  fun b hb => h.digits b (mem_of_mem_take hb)

theorem digits_drop (h : Significant s) (n : Nat) : ∀ b ∈ s.drop n, isDigit b = true :=
  fun b hb => h.digits b (mem_of_mem_drop hb)

theorem notMem (h : ∀ b ∈ t, isDigit b = true) (hb : isDigit b = false) : b ∉ t :=
  fun hm => ne_of_isDigit (h b hm) hb rfl

theorem zeros (n : Nat) : ∀ b ∈ replicate n (byte '0'), isDigit b = true := fun b hb => by
  obtain rfl := eq_of_mem_replicate hb
  decide

theorem digits_whole (h : Significant s) (n : Nat) :
    ∀ b ∈ s.take n ++ replicate (n - s.length) (byte '0'), isDigit b = true :=
  forall_mem_append.2 ⟨h.digits_take n, zeros _⟩

theorem stripZeros_self (h : Significant s) : stripZeros s = s := by
  simpa using stripZeros_zeros h 0 0

end Significant

open Significant (notMem zeros)

/-- **The digits and the place of the first one are read off the text.** -/
theorem read_form (h : Significant s) (hf : Form s first t) : significant t = s ∧ firstPlace t = first := by
  unfold significant firstPlace
  cases hf with
  | scientific =>
    have he : byte 'e' ∉ s.take 1 ++ fractionText (s.drop 1) :=
      not_mem_append (notMem (h.digits_take 1) (by decide))
        (notMem_fractionText (h.digits_drop 1) (by decide) (by decide))
    constructor
    · rw [takeWhile_before he, filter_append, filter_point (h.digits_take 1), filter_fractionText (h.digits_drop 1),
        take_append_drop, h.stripZeros_self]
    · rw [if_pos (mem_append_right _ mem_cons_self), dropWhile_before he]
      exact exponentValue_exponentText first
  | small hneg =>
    have hdigits := forall_mem_append.2 ⟨zeros ((-first).toNat - 1), h.digits⟩
    have he : byte 'e' ∉ byte '0' :: byte '.' :: (replicate ((-first).toNat - 1) (byte '0') ++ s) := by
      simp only [mem_cons, not_or]
      exact ⟨by decide, by decide, notMem hdigits (by decide)⟩
    -- without the point, the zeros before the digits count the places up to the first one
    have hfilter : (byte '0' :: byte '.' :: (replicate ((-first).toNat - 1) (byte '0') ++ s)).filter (· != byte '.') =
        replicate (-first).toNat (byte '0') ++ s := by
      rw [filter_cons_of_pos (by decide), filter_cons_of_neg (by decide), filter_point hdigits,
        ← cons_append, ← replicate_succ, Nat.sub_add_cancel (by omega)]
    constructor
    · rw [takeWhile_all he, hfilter]
      simpa using stripZeros_zeros h (-first).toNat 0
    · rw [if_neg he, head?_cons, if_pos rfl, hfilter, takeWhile_zeros _ h.head, length_replicate]
      omega
  | plain hpos =>
    have hwhole := h.digits_whole (first.toNat + 1)
    have he : byte 'e' ∉ s.take (first.toNat + 1) ++ replicate (first.toNat + 1 - s.length) (byte '0') ++
        fractionText (s.drop (first.toNat + 1)) :=
      not_mem_append (notMem hwhole (by decide)) (notMem_fractionText (h.digits_drop _) (by decide) (by decide))
    constructor
    · rw [takeWhile_all he, filter_append, filter_point hwhole, filter_fractionText (h.digits_drop _)]
      rcases Nat.le_total s.length (first.toNat + 1) with hle | hle
      · rw [take_of_length_le hle, drop_of_length_le hle, append_nil]
        simpa using stripZeros_zeros h 0 (first.toNat + 1 - s.length)
      · rw [Nat.sub_eq_zero_of_le hle, replicate_zero, append_nil, take_append_drop, h.stripZeros_self]
    obtain ⟨b, u, rfl⟩ := exists_cons_of_ne_nil h.nonempty
    have hhead : ¬ some b = some (byte '0') := fun hb => h.head b rfl (Option.some.inj hb)
    rw [if_neg he, take_succ_cons, cons_append, cons_append, head?_cons, if_neg hhead,
      ← cons_append, ← cons_append, ← take_succ_cons, takeWhile_fraction (notMem hwhole (by decide)),
      length_append, length_take, length_replicate]
    omega

theorem head_form (h : Significant s) (hf : Form s first t) : ∀ b ∈ t.head?, isDigit b = true := by
  obtain ⟨b, u, rfl⟩ := exists_cons_of_ne_nil h.nonempty
  have hb := h.digits b mem_cons_self
  cases hf with
  | scientific | plain _ => exact fun _ hc => Option.some.inj hc ▸ hb
  | small _ => exact fun _ hc => Option.some.inj hc ▸ by decide

/-! ## Finite doubles -/

/-- A finite double without its sign. -/
def numeral (x : Double) : Text :=
  if x.magnitude = 0 then ofString "0"
  else
    let d := shortest x.scaled.1 x.scaled.2
    layout d.text ((digitCount d.digits : Int) - 1 + d.exponent)

/-- What a text says of a double. -/
inductive Written (x : Double) : Text → Prop
  | nan (h : x.isNaN = true) : Written x (ofString "NaN")
  | infinite (h : x.isInfinite = true) : Written x (if x.negative then ofString "-Inf" else ofString "+Inf")
  | finite : Written x ((if x.negative then [byte '-'] else []) ++ numeral x)

theorem written_floatText (x : Double) : Written x (floatText x) := by
  unfold floatText
  dsimp only
  split
  · exact .nan ‹_›
  split
  · exact .infinite ‹_›
  have hsign : (if x.negative then "-" else [] : Text) = if x.negative then [byte '-'] else [] := by split <;> rfl
  have hnumeral := Written.finite (x := x)
  unfold numeral at hnumeral
  rw [hsign]
  split
  · rename_i h0
    rwa [if_pos h0] at hnumeral
  · rename_i h0
    rwa [if_neg h0] at hnumeral

variable {x y : Double}

/-- The rational that a text writes. -/
def reading (t : Text) : ℚ := placed (significant t) (firstPlace t)

/-- **A finite double is written as a rational in its interval.** -/
theorem contains_numeral (x : Double) : (intervalOf x.magnitude).Contains (reading (numeral x)) := by
  unfold numeral
  split
  · rename_i h0
    have hzero : reading (ofString "0") = 0 := by
      unfold reading placed
      rw [show digitsValue (significant (ofString "0")) = 0 by decide, Nat.cast_zero, zero_mul]
    rw [h0, hzero]
    refine ⟨.inr ⟨by decide, ?_⟩, .inl ?_⟩
    · rw [Interval.lower, show (intervalOf 0).low = 0 by decide, Nat.cast_zero, zero_mul]
    · rw [Interval.upper, show (intervalOf 0).high = 2 by decide]
      positivity
  · rename_i h0
    obtain ⟨hm, hlt, he⟩ := scaledOf_bounds (Nat.pos_of_ne_zero h0)
    have hs := significant_text (digits_shortest_pos hm hlt he)
    obtain ⟨hdigits, hfirst⟩ := read_form hs (form_layout _
      ((digitCount (shortest x.scaled.1 x.scaled.2).digits : Int) - 1 + (shortest x.scaled.1 x.scaled.2).exponent))
    rw [scaled_eq] at hdigits hfirst ⊢
    rw [reading, hdigits, hfirst, ← value_eq]
    exact shortest_contains hm hlt he

theorem isNumeral_numeral (x : Double) : ∀ b ∈ numeral x, Text.isNumeral b = true := by
  unfold numeral
  split
  · exact all_eq_true.1 rfl
  · exact Text.isNumeral_layout (Text.isNumeral_decimalText _) _

theorem head_numeral (x : Double) : ∀ b ∈ (numeral x).head?, isDigit b = true := by
  unfold numeral
  split
  · rintro b ⟨⟩
    rfl
  · rename_i h0
    obtain ⟨hm, hlt, he⟩ := scaledOf_bounds (Nat.pos_of_ne_zero h0)
    exact head_form (significant_text (digits_shortest_pos hm hlt he)) (form_layout _ _)

theorem eq_of_magnitude (hs : x.negative = y.negative) (hm : x.magnitude = y.magnitude) : x = y := by
  have hbits (x : Double) : x.bits.toNat = (if x.negative then 2 ^ 63 else 0) + x.magnitude := by
    have hlt := x.bits.toNat_lt
    have hmag : x.magnitude = x.bits.toNat % 2 ^ 63 := by
      rw [Double.magnitude, UInt64.toNat_and]
      exact Nat.and_two_pow_sub_one_eq_mod _ 63
    have hsign : x.negative = true ↔ x.bits.toNat / 2 ^ 63 = 1 := by
      rw [Double.negative, decide_eq_true_iff, ← UInt64.toNat_inj, UInt64.toNat_shiftRight]
      simp [Nat.shiftRight_eq_div_pow]
    rw [hmag]
    split
    · have := hsign.1 ‹_›
      omega
    · have := mt hsign.2 ‹_›
      omega
  have := hbits x
  rw [hs, hm, ← hbits y] at this
  cases x
  cases y
  exact congrArg _ (UInt64.toNat_inj.1 this)

/-- The letters of the names stand in no finite double. -/
theorem notMem_finite (hb : Text.isNumeral b = false) : b ∉ (if x.negative then [byte '-'] else []) ++ numeral x := by
  refine not_mem_append (fun hm => ?_) fun hm => Bool.false_ne_true (hb.symm.trans (isNumeral_numeral x b hm))
  split at hm
  · obtain rfl := mem_singleton.1 hm
    exact absurd hb (by decide)
  · exact not_mem_nil hm

theorem finite_injective
    (h : (if x.negative then [byte '-'] else []) ++ numeral x = (if y.negative then [byte '-'] else []) ++ numeral y) : x = y := by
  -- only the sign is no digit
  have hminus {x : Double} {t : Text} (h : numeral x = byte '-' :: t) : False :=
    absurd (head_numeral x _ (by rw [h]; rfl)) (by decide)
  have hsame : x.negative = y.negative ∧ numeral x = numeral y := by
    cases hx : x.negative <;> cases hy : y.negative <;> rw [hx, hy] at h
    · exact ⟨rfl, h⟩
    · exact (hminus h).elim
    · exact (hminus h.symm).elim
    · exact ⟨rfl, cons_injective h⟩
  refine eq_of_magnitude hsame.1 (eq_of_contains (contains_numeral x) ?_)
  rw [hsame.2]
  exact contains_numeral y

theorem infinite_injective (hx : x.isInfinite = true) (hy : y.isInfinite = true)
    (h : (if x.negative then ofString "-Inf" else ofString "+Inf") =
      if y.negative then ofString "-Inf" else ofString "+Inf") : x = y := by
  have hsign : x.negative = y.negative := by
    cases hx : x.negative <;> cases hy : y.negative <;> rw [hx, hy] at h
    · exact absurd h (by decide)
    · exact absurd h (by decide)
  exact eq_of_magnitude hsign ((of_decide_eq_true hx).trans (of_decide_eq_true hy).symm)

/-- **Two doubles with one text are equal, unless they are both no numbers.** -/
theorem floatText_injective (h : floatText x = floatText y) : x = y ∨ x.isNaN = true ∧ y.isNaN = true := by
  have apart {t u : Text} {b : UInt8} (h : t = u) (ht : b ∈ t) (hu : b ∉ u) : False := hu (h ▸ ht)
  have named {x : Double} (h : ofString "NaN" = if x.negative then ofString "-Inf" else ofString "+Inf") : False := by
    split at h <;> exact absurd h (by decide)
  have hx := written_floatText x
  have hy := written_floatText y
  generalize floatText x = t at hx h
  generalize floatText y = u at hy h
  cases hx with
  | nan hx =>
    cases hy with
    | nan hy => exact .inr ⟨hx, hy⟩
    | infinite hy => exact (named h).elim
    | finite => exact (apart (b := byte 'N') h (by decide) (notMem_finite (by decide))).elim
  | infinite hx =>
    cases hy with
    | nan hy => exact (named h.symm).elim
    | infinite hy => exact .inl (infinite_injective hx hy h)
    | finite => exact (apart (b := byte 'I') h (by split <;> decide) (notMem_finite (by decide))).elim
  | finite =>
    cases hy with
    | nan hy => exact (apart (b := byte 'N') h.symm (by decide) (notMem_finite (by decide))).elim
    | infinite hy => exact (apart (b := byte 'I') h.symm (by split <;> decide) (notMem_finite (by decide))).elim
    | finite => exact .inl (finite_injective h)

end Bytelift.Number
