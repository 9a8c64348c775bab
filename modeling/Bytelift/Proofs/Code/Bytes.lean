import Bytelift.Code.Assembler
import Mathlib.Data.List.Induction
import Mathlib.Tactic.Positivity
import Mathlib.Tactic.Ring

/-!
# Bytes of opcodes and numbers

The bytes of the defined opcodes count them from zero. A number is written in one, two or four bytes, most significant
first, and read from them as a signed or as an unsigned number. What was read is written as the same bytes, and what
was written is read as the same number, if the number fits.

Results:
* `Opcode.ofByte_byte`, `Opcode.byte_ofByte`: opcodes and bytes determine each other;
* `bytes2_s2`, `s2_bytes2` and the like: numbers and bytes determine each other;
* `flatMap_words`, `words_flatMap`: so do sequences of numbers and their bytes.
-/

namespace Bytelift

open List

namespace Opcode

theorem mem_all {op : Opcode} (h : op.isDefined = true) : op ∈ all := by
  have hlane (l : Lane) : l ∈ Lane.all := by cases l <;> decide
  have helem (e : Elem) : e ∈ Elem.all := by cases e <;> decide
  have hnum (n : Num) : n ∈ Num.all := by cases n <;> decide
  have harith (o : ArithOp) : o ∈ ArithOp.all := by cases o <;> decide
  have hbit (o : BitOp) : o ∈ BitOp.all := by cases o <;> decide
  have hpred (p : Pred) : p ∈ Pred.all := by cases p <;> decide
  have hconv (c : Conversion) : c ∈ Conversion.all := by cases c <;> decide
  have hstack (o : StackOp) : o ∈ StackOp.all := by cases o <;> decide
  unfold all
  simp only [mem_flatten, mem_cons, not_mem_nil, or_false, exists_eq_or_imp, exists_eq_left, mem_map,
    mem_flatMap, mem_finRange, true_and]
  cases op with
  | undefined b => cases h
  | bits o w => cases w <;> simp [hbit]
  | field o | invoke o => cases o <;> simp
  | fcmp d g => cases d <;> cases g <;> simp
  | ifRef e | ifNull e => cases e <;> simp
  | _ => simp [hlane, helem, hnum, harith, hpred, hconv, hstack]

theorem byte_of_isDefined {op : Opcode} (h : op.isDefined = true) : op.byte = (all.idxOf op).toUInt8 := by
  cases op with
  | undefined b => cases h
  | _ => rfl

theorem length_all : all.length ≤ 256 := by decide +kernel

theorem ofByte_byte {op : Opcode} (h : op.isDefined = true) : ofByte op.byte = op := by
  have hlt : all.idxOf op < all.length := idxOf_lt_length_of_mem (mem_all h)
  have htoNat : op.byte.toNat = all.idxOf op := by
    have := length_all
    simp only [byte_of_isDefined h, Nat.toUInt8, UInt8.toNat_ofNat']
    omega
  rw [ofByte, htoNat, getElem?_eq_getElem hlt, getElem_idxOf hlt]
  rfl

theorem byte_ofByte (b : UInt8) : (ofByte b).byte = b := by
  -- the bytes count the opcodes from zero
  have hbytes : all.map byte = (List.range all.length).map Nat.toUInt8 := by decide +kernel
  unfold ofByte
  cases hop : all[b.toNat]? with
  | none => rfl
  | some op =>
    obtain ⟨hlt, rfl⟩ := List.getElem?_eq_some_iff.1 hop
    have h := congrArg (·[b.toNat]?) hbytes
    simpa [hlt] using h

end Opcode

namespace Code

open Assembler (lowByte bytes2 bytes4)

/-! ## Numbers -/

variable {bs cs : List UInt8} {v : Int} {n : Nat}

theorem bigEndian_append (bs cs : List UInt8) : bigEndian (bs ++ cs) = bigEndian bs * 256 ^ cs.length + bigEndian cs := by
  unfold bigEndian
  rw [foldl_append]
  generalize bs.foldl (fun n b => n * 256 + b.toNat) 0 = m
  induction cs using List.reverseRecOn with
  | nil => simp
  | append_singleton cs c ih =>
    simp only [foldl_append, foldl_cons, foldl_nil, ih, length_append, length_cons,
      length_nil, pow_succ]
    ring

theorem bigEndian_singleton (b : UInt8) : bigEndian [b] = b.toNat := by simp [bigEndian]

theorem bigEndian_lt (bs : List UInt8) : bigEndian bs < 256 ^ bs.length := by
  induction bs using List.reverseRecOn with
  | nil => decide
  | append_singleton bs b ih =>
    have := b.toNat_lt
    rw [bigEndian_append, length_append, pow_add, bigEndian_singleton]
    simp only [length_cons, length_nil]
    omega

theorem bigEndian_injective (hlen : bs.length = cs.length) (h : bigEndian bs = bigEndian cs) : bs = cs := by
  induction bs using List.reverseRecOn generalizing cs with
  | nil => exact (length_eq_zero_iff.1 hlen.symm).symm
  | append_singleton bs b ih =>
    rcases eq_nil_or_concat cs with rfl | ⟨cs, c, rfl⟩
    · simp at hlen
    have := b.toNat_lt
    have := c.toNat_lt
    rw [concat_eq_append, bigEndian_append, bigEndian_append, bigEndian_singleton, bigEndian_singleton] at h
    simp only [length_cons, length_nil] at h
    obtain rfl := ih (by simpa using hlen) (by omega)
    rw [UInt8.toNat_inj.1 (show b.toNat = c.toNat by omega), concat_eq_append]

theorem bigEndian_lowByte (v : Int) : (bigEndian [lowByte v] : Int) = v % 256 := by
  have := Int.emod_nonneg v (b := 256) (by decide)
  have := Int.emod_lt_of_pos v (b := 256) (by decide)
  simp only [bigEndian_singleton, lowByte, Nat.toUInt8, UInt8.toNat_ofNat']
  omega

theorem bigEndian_bytes2 (v : Int) : (bigEndian (bytes2 v) : Int) = v % 65536 := by
  have := bigEndian_lowByte v
  have := bigEndian_lowByte (v / 256)
  have := bigEndian_append [lowByte (v / 256)] [lowByte v]
  simp only [bytes2, cons_append, nil_append, length_cons, length_nil] at this ⊢
  omega

theorem bigEndian_bytes4 (v : Int) : (bigEndian (bytes4 v) : Int) = v % 4294967296 := by
  have := bigEndian_bytes2 v
  have := bigEndian_bytes2 (v / 65536)
  have := bigEndian_append (bytes2 (v / 65536)) (bytes2 v)
  simp only [bytes4, show (bytes2 v).length = 2 from rfl] at this ⊢
  omega

@[simp] theorem length_bytes2 (v : Int) : (bytes2 v).length = 2 := rfl
@[simp] theorem length_bytes4 (v : Int) : (bytes4 v).length = 4 := rfl

theorem take_bytes2 (v : Int) (bs : List UInt8) : (bytes2 v ++ bs).take 2 = bytes2 v := rfl

theorem signed_emod (bits n : Nat) : signed bits n % (2 ^ bits : Nat) = n % (2 ^ bits : Nat) := Int.bmod_emod

theorem bigEndian_take_lt (k : Nat) (bs : List UInt8) : bigEndian (bs.take k) < 256 ^ k :=
  Nat.lt_of_lt_of_le (bigEndian_lt _) (Nat.pow_le_pow_right (by decide) (length_take_le ..))

theorem u1_le (bs : List UInt8) : u1 bs ≤ 255 := Nat.le_of_lt_succ (bigEndian_take_lt 1 bs)

theorem u2_le (bs : List UInt8) : u2 bs ≤ 65535 := Nat.le_of_lt_succ (bigEndian_take_lt 2 bs)

theorem signed_bounds (bits : Nat) (hbits : 0 < bits) (n : Nat) :
    -(2 ^ (bits - 1) : Int) ≤ signed bits n ∧ signed bits n < 2 ^ (bits - 1) := by
  obtain ⟨k, rfl⟩ := Nat.exists_eq_succ_of_ne_zero hbits.ne'
  have hpow : ((Nat.pow 2 (k + 1) : Nat) : Int) = 2 ^ k * 2 := by
    rw [Nat.pow_eq, Nat.pow_succ]
    push_cast
    rfl
  unfold signed
  simp only [Nat.succ_eq_add_one, Nat.add_sub_cancel]
  generalize Nat.pow 2 (k + 1) = m at hpow
  have hpos : 0 < m := by
    have : (0 : Int) < 2 ^ k := by positivity
    omega
  have hlo := Int.le_bmod (x := n) hpos
  have hhi := Int.bmod_lt (x := n) hpos
  omega

theorem s1_bounds (bs : List UInt8) : -128 ≤ s1 bs ∧ s1 bs ≤ 127 := by
  have := signed_bounds 8 (by decide) (bigEndian (bs.take 1))
  exact ⟨this.1, Int.le_of_lt_add_one this.2⟩

theorem s2_bounds (bs : List UInt8) : -32768 ≤ s2 bs ∧ s2 bs ≤ 32767 := by
  have := signed_bounds 16 (by decide) (bigEndian (bs.take 2))
  exact ⟨this.1, Int.le_of_lt_add_one this.2⟩

theorem s4_bounds (bs : List UInt8) : -2147483648 ≤ s4 bs ∧ s4 bs ≤ 2147483647 := by
  have := signed_bounds 32 (by decide) (bigEndian (bs.take 4))
  exact ⟨this.1, Int.le_of_lt_add_one this.2⟩

/-! ## Writing what was read -/

/-- The bytes of a number are those that it was read from, whether with a sign or without. -/
theorem eq_take {cs : List UInt8} {k : Nat} (h : k ≤ bs.length) (hlen : cs.length = k) (hcs : (bigEndian cs : Int) = v % (256 ^ k : Nat))
    (hv : v % (256 ^ k : Nat) = (bigEndian (bs.take k) : Int) % (256 ^ k : Nat)) : cs = bs.take k := by
  refine bigEndian_injective (by simp; omega) ?_
  have hlt := bigEndian_take_lt k bs
  rw [hv, ← Int.natCast_emod, Nat.mod_eq_of_lt hlt] at hcs
  exact Int.ofNat_inj.1 hcs

theorem lowByte_u1 (h : 1 ≤ bs.length) : [lowByte (u1 bs)] = bs.take 1 := eq_take h rfl (bigEndian_lowByte _) rfl

theorem lowByte_s1 (h : 1 ≤ bs.length) : [lowByte (s1 bs)] = bs.take 1 := eq_take h rfl (bigEndian_lowByte _) (signed_emod 8 _)

theorem bytes2_u2 (h : 2 ≤ bs.length) : bytes2 (u2 bs) = bs.take 2 := eq_take h rfl (bigEndian_bytes2 _) rfl

theorem bytes2_s2 (h : 2 ≤ bs.length) : bytes2 (s2 bs) = bs.take 2 := eq_take h rfl (bigEndian_bytes2 _) (signed_emod 16 _)

theorem bytes4_s4 (h : 4 ≤ bs.length) : bytes4 (s4 bs) = bs.take 4 := eq_take h rfl (bigEndian_bytes4 _) (signed_emod 32 _)

/-! ## Reading what was written -/

theorem signed_eq {bits n : Nat} {v : Int} (h : (n : Int) = v % (Nat.pow 2 bits : Nat)) (hlo : -(Nat.pow 2 bits / 2 : Nat) ≤ v)
    (hhi : v < (Nat.pow 2 bits + 1) / 2) : signed bits n = v := by
  unfold signed
  rw [h, Int.emod_bmod]
  exact Int.bmod_eq_of_le hlo hhi

theorem u1_lowByte (h : n < 256) : u1 (lowByte n :: bs) = n := by
  have := bigEndian_lowByte n
  simp only [u1, take_succ_cons, take_zero]
  omega

theorem s1_lowByte (hlo : -128 ≤ v) (hhi : v ≤ 127) : s1 (lowByte v :: bs) = v :=
  signed_eq (bigEndian_lowByte v) (by simpa using hlo) (by simp; omega)

theorem u2_bytes2 (h : n < 65536) : u2 (bytes2 n ++ bs) = n := by
  have := bigEndian_bytes2 n
  simp only [u2, take_bytes2]
  omega

theorem s2_bytes2 (hlo : -32768 ≤ v) (hhi : v ≤ 32767) : s2 (bytes2 v ++ bs) = v :=
  signed_eq (bigEndian_bytes2 v) (by simpa using hlo) (by simp; omega)

theorem s4_bytes4 (hlo : -2147483648 ≤ v) (hhi : v ≤ 2147483647) : s4 (bytes4 v ++ bs) = v :=
  signed_eq (bigEndian_bytes4 v) (by simpa using hlo) (by simp; omega)


/-! ## Sequences of numbers -/

theorem length_words (n : Nat) (bs : List UInt8) : (words n bs).length = n := by
  induction n generalizing bs with
  | zero => rfl
  | succ n ih => simp [words, ih]

theorem flatMap_words {n : Nat} (h : 4 * n ≤ bs.length) : (words n bs).flatMap bytes4 = bs.take (4 * n) := by
  induction n generalizing bs with
  | zero => simp [words]
  | succ n ih =>
    rw [words, flatMap_cons, bytes4_s4 (by omega), ih (by simp; omega), show 4 * (n + 1) = 4 + 4 * n by omega, take_add]

theorem words_flatMap (bs : List UInt8) {ws : List Int} (h : ∀ w ∈ ws, -2147483648 ≤ w ∧ w ≤ 2147483647) :
    words ws.length (ws.flatMap bytes4 ++ bs) = ws := by
  induction ws with
  | nil => rfl
  | cons w ws ih =>
    obtain ⟨⟨hlo, hhi⟩, hws⟩ := forall_mem_cons.1 h
    rw [flatMap_cons, append_assoc, length_cons, words, s4_bytes4 hlo hhi]
    exact congrArg _ (ih hws)

theorem mem_words {n : Nat} {w : Int} (h : w ∈ words n bs) : -2147483648 ≤ w ∧ w ≤ 2147483647 := by
  induction n generalizing bs with
  | zero => cases h
  | succ n ih =>
    rw [words] at h
    rcases mem_cons.1 h with h | h
    · exact h ▸ s4_bounds bs
    · exact ih h

end Code
end Bytelift
