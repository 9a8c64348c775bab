import Bytelift.Proofs.Text.Runes
import Bytelift.Text.Quoted
import Mathlib.Tactic.Ring

/-!
# Quoting

A quoted text is read back as the text that was quoted, whatever its bytes are. A printable code point stands for
itself, and an escape by code point gives the bytes that the code point was decoded from.

Results:
* `unquote?_quote`: **a quoted text is read back**.
-/

namespace Bytelift.Text

open List

variable {b : UInt8} {t u w acc : Text} {c n : Nat}

theorem Encodes.ascii {c : Nat} (h : Encodes c b w) (hc : c < 0x80) : c = b.toNat ∧ w = [] := by
  have he := h.encode
  rw [encodeRune, if_pos hc] at he
  obtain ⟨rfl, rfl⟩ := List.cons.inj he
  simp [Nat.toUInt8]
  omega

/-! ## Hexadecimal digits -/

theorem hexValue?_hexDigit (h : n < 16) : hexValue? (hexDigit n) = some n := by
  have all : ∀ n < 16, hexValue? (hexDigit n) = some n := by decide
  exact all n h

theorem hexFixed_succ (width n : Nat) : hexFixed (width + 1) n = hexDigit (n / 16 ^ width % 16) :: hexFixed width n := by
  unfold hexFixed
  rw [range_succ, reverse_concat, map_cons]
  rfl

theorem digitsValue?_hexFixed (width n a : Nat) :
    digitsValue? 16 hexValue? (hexFixed width n) a = some (a * 16 ^ width + n % 16 ^ width) := by
  induction width generalizing a with
  | zero => simp [hexFixed, digitsValue?, Nat.mod_one]
  | succ width ih =>
    rw [hexFixed_succ, digitsValue?, hexValue?_hexDigit (Nat.mod_lt _ (by decide))]
    simp only [bind, Option.bind_some, ih, Option.some.injEq]
    rw [Nat.pow_succ, Nat.mod_mul]
    ring

theorem length_hexFixed (width n : Nat) : (hexFixed width n).length = width := by simp [hexFixed]

/-! ## Escapes -/

theorem unquoteFrom_skip (w u acc : Text) : unquoteFrom w.length (w ++ u) acc = unquoteFrom 0 u acc := by
  induction w with
  | nil => rfl
  | cons b w ih => exact ih

theorem unquoteFrom_escape {letter : UInt8} {value : Text} (h : escape? letter (w ++ u) = some (value, w.length)) :
    unquoteFrom 0 (92 :: letter :: (w ++ u)) acc = unquoteFrom 0 u (value.reverse ++ acc) := by
  rw [unquoteFrom, if_neg (by decide), if_neg (by decide), if_pos rfl, h]
  exact unquoteFrom_skip (letter :: w) u _

theorem escape?_byte (b : UInt8) (u : Text) : escape? (byte 'x') (hexFixed 2 b.toNat ++ u) = some ([b], 2) := by
  have hlen : ¬ (hexFixed 2 b.toNat ++ u).length < 2 := by rw [length_append, length_hexFixed]; omega
  have htake : (hexFixed 2 b.toNat ++ u).take 2 = hexFixed 2 b.toNat := take_left' (length_hexFixed 2 _)
  have hx (t : Text) : escape? (byte 'x') t =
      if t.length < 2 then none else (digitsValue? 16 hexValue? (t.take 2) 0).map fun v => ([v.toUInt8], 2) := rfl
  rw [hx, if_neg hlen, htake, digitsValue?_hexFixed]
  simp [Nat.mod_eq_of_lt b.toNat_lt]

theorem codeEscape?_hexFixed (width : Nat) (h : n < 16 ^ width) (hn : isScalar n = true) :
    codeEscape? width (hexFixed width n ++ u) = some (encodeRune n, width) := by
  have hlen : ¬ (hexFixed width n ++ u).length < width := by simp [length_hexFixed]
  unfold codeEscape?
  rw [if_neg hlen, take_left' (length_hexFixed width n), digitsValue?_hexFixed]
  simp [Nat.mod_eq_of_lt h, hn]

theorem escapeLetter?_spec {letter : UInt8} (h : escapeLetter? c = some letter) :
    c < 0x80 ∧ ∀ u, escape? letter u = some ([c.toUInt8], 0) := by
  unfold escapeLetter? at h
  split at h <;> cases h
  all_goals exact ⟨by decide, fun _ => rfl⟩

theorem isPrintable_lineFeed : isPrintable 10 = false := by decide +kernel

/-- A code point that is decoded from bytes is read back as those bytes. -/
theorem unquoteFrom_code (h : Encodes c b w) :
    unquoteFrom 0 (escapeCode '"' c (b :: w) ++ u) acc = unquoteFrom 0 u ((b :: w).reverse ++ acc) := by
  unfold escapeCode
  split
  · rename_i hc
    obtain ⟨rfl, rfl⟩ := h.ascii (by rcases hc with rfl | rfl <;> decide)
    rw [toUInt8_eq rfl]
    refine unquoteFrom_escape (w := []) ?_
    rcases hc with hc | hc
    · obtain rfl : b = 34 := UInt8.toNat_inj.1 hc
      rfl
    · obtain rfl : b = 92 := UInt8.toNat_inj.1 hc
      rfl
  rename_i hmark
  split
  · rename_i hprint
    -- the first byte is the code point itself, or no ASCII byte at all
    have hb : b ≠ 34 ∧ b ≠ 10 ∧ b ≠ 92 := by
      have hne (x : UInt8) (hx : x.toNat < 0x80) (hc : c ≠ x.toNat) : b ≠ x := by
        rintro rfl
        have hdecode := h.decode []
        rw [rune_ascii (UInt8.lt_iff_toNat_lt.2 hx)] at hdecode
        exact hc (Rune.valid.inj hdecode).1.symm
      refine ⟨hne 34 (by decide) fun hc => hmark (.inl hc), hne 10 (by decide) ?_, hne 92 (by decide) fun hc => hmark (.inr hc)⟩
      rintro rfl
      exact Bool.false_ne_true (isPrintable_lineFeed.symm.trans hprint)
    rw [cons_append, unquoteFrom.eq_def]
    dsimp only
    rw [if_neg hb.1, if_neg hb.2.1, if_neg hb.2.2, h.decode u]
    exact unquoteFrom_skip w u _
  rename_i hprint
  split
  · rename_i letter hletter
    obtain ⟨hc, hescape⟩ := escapeLetter?_spec hletter
    obtain ⟨rfl, rfl⟩ := h.ascii hc
    refine (unquoteFrom_escape (w := []) (hescape u)).trans ?_
    rw [toUInt8_eq rfl]
  split
  · rename_i hc
    obtain ⟨rfl, rfl⟩ := h.ascii (by omega)
    exact unquoteFrom_escape (w := hexFixed 2 b.toNat) (escape?_byte b u)
  split
  · have hc : c < 16 ^ 4 := by omega
    have hescape : escape? (byte 'u') (hexFixed 4 c ++ u) = some (encodeRune c, 4) := codeEscape?_hexFixed 4 hc h.scalar
    rw [h.encode] at hescape
    exact unquoteFrom_escape (w := hexFixed 4 c) hescape
  have hc : c < 16 ^ 8 := by
    have := h.scalar
    simp [isScalar] at this
    omega
  have hescape : escape? (byte 'U') (hexFixed 8 c ++ u) = some (encodeRune c, 8) := codeEscape?_hexFixed 8 hc h.scalar
  rw [h.encode] at hescape
  exact unquoteFrom_escape (w := hexFixed 8 c) hescape

/-- An escaped rune is read as its bytes. -/
theorem unquoteFrom_rune (b : UInt8) (t u acc : Text) :
    unquoteFrom 0 (escapeRune '"' (rune b t) ++ u) acc = unquoteFrom 0 u ((rune b t).bytes.reverse ++ acc) := by
  rcases rune_spec b t with h | ⟨c, w, h, -, hc⟩
  · rw [h]
    exact unquoteFrom_escape (w := hexFixed 2 b.toNat) (escape?_byte b u)
  · rw [h]
    exact unquoteFrom_code hc

theorem unquoteFrom_runes {rs : List Rune} (h : ∀ r ∈ rs, ∃ b t, r = rune b t) (acc : Text) :
    unquoteFrom 0 (rs.flatMap (escapeRune '"') ++ [34]) acc = some (acc.reverse ++ rs.flatMap Rune.bytes) := by
  induction rs generalizing acc with
  | nil => simp [unquoteFrom]
  | cons r rs ih =>
    obtain ⟨⟨b, t, rfl⟩, hrs⟩ := forall_mem_cons.1 h
    rw [flatMap_cons, append_assoc, unquoteFrom_rune, ih hrs, flatMap_cons]
    simp

/-- **A quoted text is read back.** -/
theorem unquote?_quote (t : Text) : unquote? (quote t) = some t := by
  refine (unquoteFrom_runes (fun r hr => rune_of_mem_runes hr) []).trans ?_
  rw [bytes_runes]
  rfl

theorem quote_injective : Function.Injective quote := by
  intro t u h
  have := congrArg unquote? h
  rw [unquote?_quote, unquote?_quote] at this
  exact Option.some.inj this

end Bytelift.Text
