import Bytelift.Text.Utf8
import Mathlib.Data.List.Basic

/-!
# Runes of a text

The runes of a text cover it from the left: the bytes of each rune are the next bytes of the text. How a rune is decoded
does not depend on what follows it, and a code point is decoded from its shortest bytes only. An ASCII byte is
a rune of its own wherever it stands, also behind a sequence of bytes that breaks off. So blanks at the ends of a text
are cut off byte by byte.

Results:
* `bytes_runes`: **the bytes of the runes make up the text**.
-/

namespace Bytelift.Text

open List

variable {b c : UInt8} {t u w : Text} {n : Nat}

/-! ## One rune -/

theorem continuation?_ascii (h : b < 0x80) : continuation? b = none := by
  unfold continuation?
  rw [if_neg]
  have : ¬ 0x80 ≤ b := UInt8.not_le.2 h
  simp [this]

theorem continuation?_spec (h : continuation? b = some n) : 0x80 ≤ b ∧ b.toNat = 0x80 + n ∧ n < 64 := by
  unfold continuation? at h
  split at h
  · rename_i hb
    simp only [Bool.and_eq_true, decide_eq_true_eq, UInt8.le_iff_toNat_le, UInt8.reduceToNat] at hb ⊢
    obtain rfl := Option.some.inj h
    omega
  · cases h

theorem toUInt8_eq (h : b.toNat = n) : n.toUInt8 = b := by
  subst h
  exact UInt8.ofNat_toNat

theorem rune_ascii (h : b < 0x80) : rune b t = .valid b.toNat [b] := by
  unfold rune
  rw [if_pos h]

/-- A code point is encoded by its bytes, and it is decoded from them whatever follows. -/
structure Encodes (c : Nat) (b : UInt8) (w : Text) : Prop where
  scalar : isScalar c = true
  encode : encodeRune c = b :: w
  decode : ∀ u, rune b (w ++ u) = .valid c (b :: w)
  /-- The bytes behind the first one are continuation bytes. -/
  high : ∀ x ∈ w, 0x80 ≤ x

theorem encodes_ascii (h : b.toNat < 0x80) : Encodes b.toNat b [] := by
  refine ⟨by simp [isScalar]; omega, ?_, fun u => rune_ascii (UInt8.lt_iff_toNat_lt.2 h), nofun⟩
  rw [encodeRune, if_pos h, toUInt8_eq rfl]

theorem encodes_two (hlo : 0xC0 ≤ b.toNat) (hhi : b.toNat < 0xE0) (h : twoBytes? b t = some (n, w)) :
    ∃ v, w = b :: v ∧ v <+: t ∧ Encodes n b v := by
  match t, h with
  | [], h => cases h
  | b1 :: rest, h =>
    have hlocal (u : Text) : twoBytes? b ([b1] ++ u) = some (n, w) := h
    simp only [twoBytes?, bind, Option.bind_eq_some_iff] at h
    obtain ⟨x, hx, h⟩ := h
    obtain ⟨h1, hb1, hx'⟩ := continuation?_spec hx
    split at h
    case isFalse => cases h
    rename_i hc
    obtain ⟨rfl, rfl⟩ := Prod.mk.inj (Option.some.inj h)
    refine ⟨[b1], rfl, ⟨rest, rfl⟩, by simp [isScalar]; omega, ?_, fun u => ?_, by simp [h1]⟩
    · rw [encodeRune, if_neg (by omega), if_pos (by omega), toUInt8_eq (b := b) (by omega), toUInt8_eq (b := b1) (by omega)]
    · simp only [rune, UInt8.lt_iff_toNat_lt, UInt8.reduceToNat]
      rw [if_neg (by omega), if_neg (by omega), if_pos hhi, hlocal u]

theorem encodes_three (hlo : 0xE0 ≤ b.toNat) (hhi : b.toNat < 0xF0) (h : threeBytes? b t = some (n, w)) :
    ∃ v, w = b :: v ∧ v <+: t ∧ Encodes n b v := by
  match t, h with
  | [], h | [_], h => cases h
  | b1 :: b2 :: rest, h =>
    have hlocal (u : Text) : threeBytes? b ([b1, b2] ++ u) = some (n, w) := h
    simp only [threeBytes?, bind, Option.bind_eq_some_iff] at h
    obtain ⟨x, hx, y, hy, h⟩ := h
    obtain ⟨h1, hb1, hx'⟩ := continuation?_spec hx
    obtain ⟨h2, hb2, hy'⟩ := continuation?_spec hy
    split at h
    case isFalse => cases h
    rename_i hc
    obtain ⟨rfl, rfl⟩ := Prod.mk.inj (Option.some.inj h)
    obtain ⟨hmin, hscalar⟩ : _ ≤ _ ∧ _ := by simpa using hc
    refine ⟨[b1, b2], rfl, ⟨rest, rfl⟩, hscalar, ?_, fun u => ?_, by simp [h1, h2]⟩
    · rw [encodeRune, if_neg (by omega), if_neg (by omega), if_pos (by omega), toUInt8_eq (b := b) (by omega),
        toUInt8_eq (b := b1) (by omega), toUInt8_eq (b := b2) (by omega)]
    · simp only [rune, UInt8.lt_iff_toNat_lt, UInt8.reduceToNat]
      rw [if_neg (by omega), if_neg (by omega), if_neg (by omega), if_pos hhi, hlocal u]

theorem encodes_four (hlo : 0xF0 ≤ b.toNat) (hhi : b.toNat < 0xF8) (h : fourBytes? b t = some (n, w)) :
    ∃ v, w = b :: v ∧ v <+: t ∧ Encodes n b v := by
  match t, h with
  | [], h | [_], h | [_, _], h => cases h
  | b1 :: b2 :: b3 :: rest, h =>
    have hlocal (u : Text) : fourBytes? b ([b1, b2, b3] ++ u) = some (n, w) := h
    simp only [fourBytes?, bind, Option.bind_eq_some_iff] at h
    obtain ⟨x, hx, y, hy, z, hz, h⟩ := h
    obtain ⟨h1, hb1, hx'⟩ := continuation?_spec hx
    obtain ⟨h2, hb2, hy'⟩ := continuation?_spec hy
    obtain ⟨h3, hb3, hz'⟩ := continuation?_spec hz
    split at h
    case isFalse => cases h
    rename_i hc
    obtain ⟨rfl, rfl⟩ := Prod.mk.inj (Option.some.inj h)
    obtain ⟨hmin, hscalar⟩ : _ ≤ _ ∧ _ := by simpa using hc
    refine ⟨[b1, b2, b3], rfl, ⟨rest, rfl⟩, hscalar, ?_, fun u => ?_, by simp [h1, h2, h3]⟩
    · rw [encodeRune, if_neg (by omega), if_neg (by omega), if_neg (by omega), toUInt8_eq (b := b) (by omega),
        toUInt8_eq (b := b1) (by omega), toUInt8_eq (b := b2) (by omega), toUInt8_eq (b := b3) (by omega)]
    · simp only [rune, UInt8.lt_iff_toNat_lt, UInt8.reduceToNat]
      rw [if_neg (by omega), if_neg (by omega), if_neg (by omega), if_neg (by omega), if_pos hhi, hlocal u]

/-- **What is decoded is encoded by the bytes that it was decoded from.** -/
theorem rune_spec (b : UInt8) (t : Text) :
    rune b t = .invalid b ∨ ∃ c w, rune b t = .valid c (b :: w) ∧ w <+: t ∧ Encodes c b w := by
  have found {o : Option (Nat × Text)} (ho : ∀ c w, o = some (c, w) → ∃ v, w = b :: v ∧ v <+: t ∧ Encodes c b v) :
      (match o with | some (c, w) => Rune.valid c w | none => .invalid b) = .invalid b ∨
        ∃ c w, (match o with | some (c, w) => Rune.valid c w | none => .invalid b) = .valid c (b :: w) ∧ w <+: t ∧ Encodes c b w := by
    cases o with
    | none => exact .inl rfl
    | some p =>
      obtain ⟨v, hv, hc⟩ := ho p.1 p.2 rfl
      exact .inr ⟨p.1, v, congrArg _ hv, hc⟩
  refine found fun c w ho => ?_
  simp only [UInt8.lt_iff_toNat_lt, UInt8.reduceToNat] at ho
  split at ho
  · rename_i hb
    cases ho
    exact ⟨[], rfl, nil_prefix, encodes_ascii hb⟩
  split at ho
  · cases ho
  split at ho
  · exact encodes_two (by omega) ‹_› ho
  split at ho
  · exact encodes_three (by omega) ‹_› ho
  split at ho
  · exact encodes_four (by omega) ‹_› ho
  · cases ho

/-- An ASCII byte is part of no rune before it. -/
theorem rune_append (h : c < 0x80) : rune b (t ++ c :: u) = rune b t := by
  have hc := continuation?_ascii h
  have two : twoBytes? b (t ++ c :: u) = twoBytes? b t := by
    cases t <;> simp [twoBytes?, hc]
  have three : threeBytes? b (t ++ c :: u) = threeBytes? b t := by
    rcases t with _ | ⟨x, _ | ⟨y, t⟩⟩ <;> cases u <;> simp [threeBytes?, hc]
  have four : fourBytes? b (t ++ c :: u) = fourBytes? b t := by
    rcases t with _ | ⟨x, _ | ⟨y, _ | ⟨z, t⟩⟩⟩ <;> rcases u with _ | ⟨x', _ | ⟨y', u⟩⟩ <;> simp [fourBytes?, hc]
  unfold rune
  rw [two, three, four]

/-! ## All runes -/

theorem runesFrom_eq (skip : Nat) (t : Text) (acc : List Rune) :
    runesFrom skip t acc = acc.reverse ++ runes (t.drop skip) := by
  induction t generalizing skip acc with
  | nil => cases skip <;> simp [runesFrom, runes]
  | cons b t ih =>
    cases skip with
    | zero =>
      rw [drop_zero, runes, runesFrom, runesFrom, ih, ih]
      simp
    | succ skip =>
      rw [runesFrom, ih]
      rfl

@[simp] theorem runes_nil : runes [] = [] := rfl

theorem runes_cons (b : UInt8) (t : Text) : runes (b :: t) = rune b t :: runes (t.drop ((rune b t).width - 1)) := by
  rw [runes, runesFrom, runesFrom_eq]
  rfl

theorem runes_ascii (h : b < 0x80) : runes (b :: t) = .valid b.toNat [b] :: runes t := by
  rw [runes_cons, rune_ascii h]
  rfl

/-- A rune takes bytes from the front of the text. -/
theorem bytes_rune (b : UInt8) (t : Text) :
    (rune b t).bytes ++ t.drop ((rune b t).width - 1) = b :: t ∧ (rune b t).width - 1 ≤ t.length := by
  rcases rune_spec b t with hr | ⟨c, w, hr, ⟨v, rfl⟩, -⟩
  · rw [hr]
    exact ⟨rfl, Nat.zero_le _⟩
  · rw [hr]
    simp [Rune.bytes, Rune.width]

/-- **The bytes of the runes make up the text.** -/
theorem bytes_runes (t : Text) : (runes t).flatMap Rune.bytes = t := by
  match t with
  | [] => rfl
  | b :: t =>
    rw [runes_cons, flatMap_cons, bytes_runes (t.drop _)]
    exact (bytes_rune b t).1
termination_by t.length
decreasing_by simp only [List.length_drop, List.length_cons]; omega

/-- **An ASCII byte starts a new rune.** -/
theorem runes_append (h : c < 0x80) (t u : Text) : runes (t ++ c :: u) = runes t ++ runes (c :: u) := by
  match t with
  | [] => rfl
  | b :: t =>
    rw [cons_append, runes_cons, runes_cons, rune_append h,
      drop_append_of_le_length (bytes_rune b t).2, runes_append h (t.drop _) u]
    rfl
termination_by t.length
decreasing_by simp only [List.length_drop, List.length_cons]; omega

theorem rune_of_mem_runes {r : Rune} {t : Text} (h : r ∈ runes t) : ∃ b u, r = rune b u := by
  match t with
  | [] => cases h
  | b :: t =>
    rw [runes_cons] at h
    rcases mem_cons.1 h with rfl | h
    · exact ⟨b, t, rfl⟩
    · exact rune_of_mem_runes h
termination_by t.length
decreasing_by simp only [List.length_drop, List.length_cons]; omega

/-- A rune is an ASCII byte or holds none. -/
theorem bytes_of_mem_runes {r : Rune} {t : Text} (h : r ∈ runes t) :
    (∃ b, b < 0x80 ∧ r = .valid b.toNat [b]) ∨ ∀ x ∈ r.bytes, 0x80 ≤ x := by
  obtain ⟨b, u, rfl⟩ := rune_of_mem_runes h
  by_cases hb : b < 0x80
  · exact .inl ⟨b, hb, rune_ascii hb⟩
  have hb' := UInt8.not_lt.1 hb
  rcases rune_spec b u with hr | ⟨c, w, hr, -, hc⟩
  · rw [hr]
    exact .inr (by simpa [Rune.bytes] using hb')
  · rw [hr]
    exact .inr (forall_mem_cons.2 ⟨hb', hc.high⟩)

/-! ## Trimming -/

/-- The runes that trimming keeps. -/
def kept (rs : List Rune) : List Rune := ((rs.dropWhile Rune.isSpace).reverse.dropWhile Rune.isSpace).reverse

theorem trimSpace_eq (t : Text) : trimSpace t = (kept (runes t)).flatMap Rune.bytes := rfl

theorem kept_concat {rs : List Rune} {r : Rune} (h : r.isSpace = true) : kept (rs ++ [r]) = kept rs := by
  unfold kept
  rw [dropWhile_append]
  split
  · rename_i hnil
    rw [List.isEmpty_iff.1 hnil]
    simp [h]
  · simp [h]

theorem trimSpace_cons (h : b < 0x80) (hs : isSpace b.toNat = true) (t : Text) : trimSpace (b :: t) = trimSpace t := by
  rw [trimSpace_eq, trimSpace_eq, runes_ascii h]
  unfold kept
  rw [dropWhile_cons_of_pos (show (Rune.valid b.toNat [b]).isSpace = true from hs)]

theorem trimSpace_concat (h : b < 0x80) (hs : isSpace b.toNat = true) (t : Text) : trimSpace (t ++ [b]) = trimSpace t := by
  rw [trimSpace_eq, trimSpace_eq, runes_append h, runes_ascii h, runes_nil, kept_concat (r := .valid b.toNat [b]) hs]

/-- **A text without blanks at its ends stays as it is.** -/
theorem trimSpace_eq_self {t u : Text} (hb : b < 0x80) (hsb : isSpace b.toNat = false) (hc : c < 0x80)
    (hsc : isSpace c.toNat = false) (h : b :: t = u ++ [c]) : trimSpace (b :: t) = b :: t := by
  have hruns : kept (runes (b :: t)) = runes (b :: t) := by
    unfold kept
    rw [show (runes (b :: t)).dropWhile Rune.isSpace = runes (b :: t) by
      rw [runes_ascii hb, dropWhile_cons_of_neg (by simpa [Rune.isSpace] using hsb)]]
    rw [h, runes_append hc, runes_ascii hc, runes_nil, reverse_append, reverse_singleton, singleton_append,
      dropWhile_cons_of_neg (by simpa [Rune.isSpace] using hsc), reverse_cons, reverse_reverse]
  rw [trimSpace_eq, hruns, bytes_runes]

theorem reverse_dropWhile_isPrefix (p : Rune → Bool) (rs : List Rune) : (rs.reverse.dropWhile p).reverse <+: rs := by
  have h := reverse_prefix.2 (dropWhile_suffix p (l := rs.reverse))
  rwa [reverse_reverse] at h

theorem trimSpace_isInfix (t : Text) : trimSpace t <:+: t := by
  have hkept : kept (runes t) <:+: runes t :=
    (reverse_dropWhile_isPrefix _ _).isInfix.trans (dropWhile_suffix _).isInfix
  obtain ⟨x, y, h⟩ := hkept
  refine ⟨x.flatMap Rune.bytes, y.flatMap Rune.bytes, ?_⟩
  rw [trimSpace_eq, ← flatMap_append, ← flatMap_append, h, bytes_runes]

end Bytelift.Text
