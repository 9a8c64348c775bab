import Bytelift.Proofs.Machine.Execution
import Mathlib.Data.Int.Bitwise
import Mathlib.Data.Int.ModEq

/-!
# Integer operations

A value of the machine has 64 bits, and an operation of a narrower type reads the low ones. Its result is that of the same operation on
the integers that these bits stand for, cut to the bits of the type. The operations of both types are operations on words, so that one
argument serves the two.

Results:
* `integer_operations`: **integer operations are those of two's complement.**
-/

namespace Bytelift.Machine

open Ir BitVec

/-- The integer types with the numbers of their bits. -/
inductive IntegerType : Ty → Nat → Prop
  | int : IntegerType .i32 32
  | long : IntegerType .i64 64

/-- The result of an operation other than a division on integers, before it is cut to a number of bits. A shift takes its count modulo
that number. -/
def exactOp (bits : Nat) (op : Op) (x y : Int) : Int :=
  match op with
  | .add => x + y
  | .sub => x - y
  | .mul => x * y
  | .shl => x * 2 ^ (y % bits).toNat
  | .shr => x / 2 ^ (y % bits).toNat
  | .ushr => x % 2 ^ bits / 2 ^ (y % bits).toNat
  | .and => x.land y
  | .or => x.lor y
  | .xor => x.xor y
  | _ => 0

variable {n : Nat} {ty : Ty} {op : Op} {a b : Value}

/-! ## Words -/

/-- The low bits of a shift count. -/
def count (y : BitVec n) : BitVec n := y &&& BitVec.ofNat n (n - 1)

/-- An operation on words of any size; `none` for a division by zero. -/
def wordOp (op : Op) (x y : BitVec n) : Option (BitVec n) :=
  match op with
  | .add => some (x + y)
  | .sub => some (x - y)
  | .mul => some (x * y)
  | .div => if y = 0 then none else some (x.sdiv y)
  | .rem => if y = 0 then none else some (x.srem y)
  | .shl => some (x <<< (count y).smod (BitVec.ofNat n n))
  | .shr => some (x.sshiftRight' ((count y).smod (BitVec.ofNat n n)))
  | .ushr => some (x >>> (count y % BitVec.ofNat n n))
  | .and => some (x &&& y)
  | .or => some (x ||| y)
  | .xor => some (x ^^^ y)
  | _ => some 0

theorem intOp_eq (op : Op) (x y : BitVec 32) : intOp op (.ofBitVec x) (.ofBitVec y) = (wordOp op x y).map .ofBitVec := by
  cases op with
  | div | rem =>
    have hzero : Int32.ofBitVec y = 0 ↔ y = 0 := Int32.toBitVec_inj.symm
    simp only [intOp, wordOp, hzero]
    split <;> rfl
  | _ => rfl

theorem longOp_eq (op : Op) (x y : BitVec 64) : longOp op (.ofBitVec x) (.ofBitVec y) = (wordOp op x y).map .ofBitVec := by
  cases op with
  | div | rem =>
    have hzero : Int64.ofBitVec y = 0 ↔ y = 0 := Int64.toBitVec_inj.symm
    simp only [longOp, wordOp, hzero]
    split <;> rfl
  | _ => rfl

theorem emod_toInt (x : BitVec n) : x.toInt % 2 ^ n = x.toNat := by
  have hmod := Int.bmod_emod (x := x.toNat) (m := 2 ^ n)
  rw [← toInt_eq_toNat_bmod] at hmod
  push_cast at hmod
  rw [hmod]
  exact_mod_cast Nat.mod_eq_of_lt x.isLt

theorem count_eq (hty : IntegerType ty n) (y : BitVec n) : ((count y).smod (BitVec.ofNat n n)).toNat = (y.toInt % n).toNat ∧
    (count y % BitVec.ofNat n n).toNat = (y.toInt % n).toNat := by
  obtain ⟨hpos, hlt, hdvd, hand⟩ : 0 < n ∧ 2 * n < 2 ^ n ∧ (n : Int) ∣ 2 ^ n ∧ ∀ m, m &&& (n - 1) = m % n := by
    cases hty with
    | int => exact ⟨by decide, by decide, by decide, fun m => Nat.and_two_pow_sub_one_eq_mod m 5⟩
    | long => exact ⟨by decide, by decide, by decide, fun m => Nat.and_two_pow_sub_one_eq_mod m 6⟩
  have hn : (BitVec.ofNat n n).toNat = n := by rw [BitVec.toNat_ofNat, Nat.mod_eq_of_lt (by omega)]
  have hc : (count y).toNat = y.toNat % n := by rw [count, BitVec.toNat_and, BitVec.toNat_ofNat, Nat.mod_eq_of_lt (by omega), hand]
  have hy : (y.toInt % n).toNat = y.toNat % n := by
    rw [← Int.emod_emod_of_dvd y.toInt hdvd, emod_toInt]
    norm_cast
  have hmod : (count y % BitVec.ofNat n n).toNat = (y.toInt % n).toNat := by rw [BitVec.toNat_umod, hn, hc, hy, Nat.mod_mod]
  refine ⟨?_, hmod⟩
  -- neither number has its sign bit set, so that the signed remainder is the unsigned one
  have hlow := Nat.mod_lt y.toNat hpos
  rw [smod_eq, msb_eq_false_iff_two_mul_lt.2 (by omega), msb_eq_false_iff_two_mul_lt.2 (by omega)]
  exact hmod

theorem getLsbD_ofInt (z : Int) (k : Nat) : (BitVec.ofInt n z).getLsbD k = (decide (k < n) && z.testBit k) := by
  cases z with
  | ofNat m => exact getLsbD_ofNat n m k
  | negSucc m =>
    rw [ofInt_negSucc_eq_not_ofNat, getLsbD_not, getLsbD_ofNat]
    cases decide (k < n) <;> simp [Int.testBit]

/-- **An operation on words is the operation on the integers that they stand for.** -/
theorem wordOp_eq (hty : IntegerType ty n) (hdiv : op ≠ .div) (hrem : op ≠ .rem) (x y : BitVec n) :
    wordOp op x y = some (BitVec.ofInt n (exactOp n op x.toInt y.toInt)) := by
  obtain ⟨hsigned, hunsigned⟩ := count_eq hty y
  cases op with
  | add | mul => simp only [wordOp, exactOp, BitVec.ofInt_add, BitVec.ofInt_mul, BitVec.ofInt_toInt]
  | sub => rw [wordOp, exactOp, Option.some_inj, ← BitVec.toInt_inj, BitVec.toInt_ofInt, BitVec.toInt_sub]
  | div => exact absurd rfl hdiv
  | rem => exact absurd rfl hrem
  | shl =>
    have hpow (k : Nat) : BitVec.ofInt n (2 ^ k) = BitVec.twoPow n k := by
      apply BitVec.eq_of_toNat_eq
      rw [BitVec.toNat_twoPow, ← BitVec.toNat_ofNat, ← BitVec.ofInt_natCast]
      norm_cast
    rw [wordOp, exactOp, ← hsigned, BitVec.ofInt_mul, BitVec.ofInt_toInt, BitVec.shiftLeft_eq', BitVec.shiftLeft_eq_mul_twoPow, hpow]
  | shr =>
    have hdiv (k : Nat) : x.toInt >>> k = x.toInt / 2 ^ k := mod_cast Int.shiftRight_eq_div_pow ..
    rw [wordOp, exactOp, ← hsigned, ← hdiv, ← BitVec.toInt_sshiftRight, BitVec.ofInt_toInt]
    rfl
  | ushr =>
    have hdiv (k : Nat) : ((x >>> k).toNat : Int) = x.toNat / 2 ^ k := by
      rw [BitVec.toNat_ushiftRight, Nat.shiftRight_eq_div_pow]
      norm_cast
    rw [wordOp, exactOp, ← hunsigned, emod_toInt, ← hdiv, BitVec.ofInt_natCast, BitVec.ofNat_toNat, BitVec.setWidth_eq]
    rfl
  | and | or | xor =>
    refine congrArg some (BitVec.eq_of_getLsbD_eq fun k hk => ?_)
    have hx := getLsbD_ofInt (n := n) x.toInt k
    have hy := getLsbD_ofInt (n := n) y.toInt k
    rw [BitVec.ofInt_toInt] at hx hy
    simp only [exactOp, getLsbD_ofInt, BitVec.getLsbD_and, BitVec.getLsbD_or, BitVec.getLsbD_xor, hx, hy, Int.testBit_land,
      Int.testBit_lor, Int.testBit_lxor, hk, decide_true, Bool.true_and]
  | _ => simp [wordOp, exactOp]

/-! ## Values -/

/-- The integer that the low bits of a value stand for. -/
def Value.signed (n : Nat) (v : Value) : Int := v.i.toInt.bmod (2 ^ n)

/-- The low bits of a value. -/
def Value.word (n : Nat) (v : Value) : BitVec n := BitVec.ofInt n v.i.toInt

/-- A word with its sign bit repeated. -/
def widen (r : BitVec n) : Int64 := Int64.ofInt r.toInt

theorem toInt_word (n : Nat) (v : Value) : (v.word n).toInt = v.signed n := toInt_ofInt _

theorem toInt_widen (hty : IntegerType ty n) (r : BitVec n) : (widen r).toInt = r.toInt := by
  cases hty with
  | int => exact (congrArg Int64.toInt (Int64.ofInt_int32ToInt (.ofBitVec r))).trans (Int32.toInt_toInt64 _)
  | long => exact congrArg Int64.toInt (Int64.ofInt_toInt (.ofBitVec r))

theorem int32_eq (v : Value) : v.int32 = .ofBitVec (v.word 32) :=
  Int32.toInt_inj.1 ((Int64.toInt_toInt32 v.i).trans (toInt_word 32 v).symm)

theorem i_eq (v : Value) : v.i = .ofBitVec (v.word 64) := congrArg Int64.ofBitVec ofInt_toInt.symm

/-- **An operation on values is the operation on their low bits.** -/
theorem binary_word (hty : IntegerType ty n) (op : Op) (a b : Value) : binary op ty a b =
    match wordOp op (a.word n) (b.word n) with
    | some r => .ok (.ofInt (widen r))
    | none => .error .zeroDivisor := by
  cases hty with
  | int =>
    rw [binary, int32_eq, int32_eq, intOp_eq]
    cases wordOp op (a.word 32) (b.word 32) with
    | none => rfl
    | some r => exact congrArg (Except.ok ∘ Value.ofInt) (Int64.ofInt_int32ToInt (.ofBitVec r)).symm
  | long =>
    rw [binary, i_eq a, i_eq b, longOp_eq]
    cases wordOp op (a.word 64) (b.word 64) with
    | none => rfl
    | some r => exact congrArg (Except.ok ∘ Value.ofInt) (Int64.ofInt_toInt (.ofBitVec r)).symm

theorem negate_word (hty : IntegerType ty n) (a : Value) : negate ty a = .ofInt (widen (-a.word n)) := by
  cases hty with
  | int =>
    rw [negate, int32_eq]
    exact congrArg Value.ofInt (Int64.ofInt_int32ToInt (.ofBitVec (-a.word 32))).symm
  | long =>
    rw [negate, i_eq a]
    exact congrArg Value.ofInt (Int64.ofInt_toInt (.ofBitVec (-a.word 64))).symm

/-! ## Integers -/

/-- An integer of a number of bits that is the same as a given one modulo their power of two. -/
structure Wraps (n : Nat) (z r : Int) : Prop where
  least : -2 ^ (n - 1) ≤ r
  most : r < 2 ^ (n - 1)
  congr : r ≡ z [ZMOD 2 ^ n]

/-- A quotient and a remainder of integers of a number of bits. The quotient goes towards zero; the only one that needs more bits wraps
around. -/
structure Divides (n : Nat) (x y q r : Int) : Prop where
  range : (-2 ^ (n - 1) ≤ q ∧ q < 2 ^ (n - 1)) ∧ -2 ^ (n - 1) ≤ r ∧ r < 2 ^ (n - 1)
  congr : q * y + r ≡ x [ZMOD 2 ^ n]
  small : |r| < |y|
  sign : r = 0 ∨ r.sign = x.sign
  quotient : ¬ (x = -2 ^ (n - 1) ∧ y = -1) → q = x.tdiv y
  overflow : x = -2 ^ (n - 1) ∧ y = -1 → q = x ∧ r = 0

theorem wraps_ofInt (z : Int) : Wraps n z (BitVec.ofInt n z).toInt where
  least := BitVec.le_toInt _
  most := toInt_lt
  congr := by
    rw [toInt_ofInt]
    exact_mod_cast Int.bmod_emod

theorem divides_words (hty : IntegerType ty n) {x y : BitVec n} (hy : y.toInt ≠ 0) :
    Divides n x.toInt y.toInt (x.sdiv y).toInt (x.srem y).toInt := by
  have hleast : (intMin n).toInt = -2 ^ (n - 1) := by cases hty <;> decide
  have hone : (-1#n).toInt = -1 := by cases hty <;> decide
  refine ⟨⟨⟨le_toInt _, toInt_lt⟩, le_toInt _, toInt_lt⟩, ?_, ?_, ?_,
    fun h => BitVec.toInt_sdiv_of_ne_or_ne x y ?_, ?_⟩
  · have hq := (wraps_ofInt (n := n) (x.toInt.tdiv y.toInt)).congr
    rw [BitVec.toInt_sdiv, BitVec.toInt_srem, ← BitVec.toInt_ofInt]
    calc _ ≡ x.toInt.tdiv y.toInt * y.toInt + x.toInt.tmod y.toInt [ZMOD 2 ^ n] := (hq.mul_right _).add_right _
      _ = x.toInt := by rw [Int.mul_comm, Int.mul_tdiv_add_tmod]
  · rw [toInt_srem, Int.abs_eq_natAbs, Int.abs_eq_natAbs, Int.natAbs_tmod]
    exact_mod_cast Nat.mod_lt _ (Int.natAbs_pos.2 hy)
  · rw [toInt_srem, Int.sign_tmod]
    by_cases hd : y.toInt ∣ x.toInt
    · exact .inl (Int.tmod_eq_zero_of_dvd hd)
    · exact .inr (if_neg hd)
  · rw [← not_and_or]
    rintro ⟨rfl, rfl⟩
    exact h ⟨hleast, hone⟩
  · rw [← hleast, ← hone, toInt_inj, toInt_inj]
    rintro ⟨rfl, rfl⟩
    rw [intMin_sdiv_neg_one, toInt_srem, hone]
    exact ⟨rfl, by rw [Int.tmod_neg, Int.tmod_one]⟩

/-! ## Instructions -/

/-- Values that agree in their low bits: these stand for the same integers. -/
def Alike (n : Nat) : List Value → List Value → Prop := List.Forall₂ fun a b => a.signed n = b.signed n

/-- An operation on values with the low bits of the given ones ends in the same way in every frame. -/
def Ends (n : Nat) (op : Op) (ty : Ty) (xs : List Value) (P : Inst → Frame → State → Except Stop Frame × State) : Prop :=
  ∀ call mod i f σ ys, i.op = op → i.ty = ty → Alike n xs ys → f.Operands i ys → (exec call mod i f).run σ = P i f σ

/-- An operation sets the value of its instruction to an integer. -/
def Results (n : Nat) (op : Op) (ty : Ty) (xs : List Value) (v : Int64) : Prop :=
  Ends n op ty xs fun i f σ => (.ok (f.define i (.ofInt v)), σ)

/-- An operation sets no value and raises a new exception of a class. -/
def Faults (n : Nat) (op : Op) (ty : Ty) (xs : List Value) (cls : Text) : Prop :=
  Ends n op ty xs fun _ _ σ => (.error (.thrown (some σ.heap.size)), { σ with heap := σ.heap.push { cls := cls } })

theorem word_eq {a' : Value} (h : a.signed n = a'.signed n) : a'.word n = a.word n :=
  toInt_inj.1 (by rw [toInt_word, toInt_word, h])

theorem ends_compute (hty : IntegerType ty n) (op : Op) (hop : computes op = true) (a b : Value) :
    match wordOp op (a.word n) (b.word n) with
    | some r => Results n op ty [a, b] (widen r)
    | none => Faults n op ty [a, b] arithmeticClass := by
  cases hw : wordOp op (a.word n) (b.word n) with
  | none | some r =>
    rintro call mod i f σ _ rfl rfl (_ | ⟨ha, _ | ⟨hb, _ | _⟩⟩) hops
    rw [defines_compute hop hops, compute, binary_word hty, word_eq ha, word_eq hb, hw]
    rfl

theorem results_neg (hty : IntegerType ty n) (a : Value) : Results n .neg ty [a] (widen (-a.word n)) := by
  rintro call mod i f σ _ hop rfl (_ | ⟨ha, _ | _⟩) hops
  simp only [exec, hop, hops.arg (n := 0) rfl, pure_bind, negate_word hty, word_eq ha]
  rfl

/-- **Integer operations are those of two's complement.** The result of an operation is determined by the low bits of its operands. It is
the integer of that many bits that is congruent to the exact result; a division gives a quotient and a remainder, and none by zero. -/
theorem integer_operations (hty : IntegerType ty n) (a b : Value) :
    (∀ op, computes op = true → op ≠ .div → op ≠ .rem →
      ∃ v, Results n op ty [a, b] v ∧ Wraps n (exactOp n op (a.signed n) (b.signed n)) v.toInt) ∧
    (∃ v, Results n .neg ty [a] v ∧ Wraps n (-a.signed n) v.toInt) ∧
    (b.signed n ≠ 0 → ∃ q r, Results n .div ty [a, b] q ∧ Results n .rem ty [a, b] r ∧
      Divides n (a.signed n) (b.signed n) q.toInt r.toInt) ∧
    (b.signed n = 0 → Faults n .div ty [a, b] arithmeticClass ∧ Faults n .rem ty [a, b] arithmeticClass) := by
  have hwide (r : BitVec n) := toInt_widen hty r
  simp only [← toInt_word]
  refine ⟨fun op hop hdiv hrem => ?_, ⟨_, results_neg hty a, ?_⟩, fun hb => ?_, fun hb => ?_⟩
  · have hends := ends_compute hty op hop a b
    rw [wordOp_eq hty hdiv hrem] at hends
    refine ⟨_, hends, ?_⟩
    rw [hwide]
    exact wraps_ofInt _
  · rw [hwide, ← BitVec.ofInt_toInt (x := a.word n), ← BitVec.ofInt_neg, BitVec.ofInt_toInt]
    exact wraps_ofInt _
  · have hne : b.word n ≠ 0 := fun h => hb (by rw [h]; exact BitVec.toInt_zero)
    have hdiv := ends_compute hty .div rfl a b
    have hrem := ends_compute hty .rem rfl a b
    rw [show wordOp .div (a.word n) (b.word n) = some _ from if_neg hne] at hdiv
    rw [show wordOp .rem (a.word n) (b.word n) = some _ from if_neg hne] at hrem
    refine ⟨_, _, hdiv, hrem, ?_⟩
    rw [hwide, hwide]
    exact divides_words hty hb
  · have hzero : b.word n = 0 := BitVec.toInt_inj.1 (hb.trans BitVec.toInt_zero.symm)
    have hdiv := ends_compute hty .div rfl a b
    have hrem := ends_compute hty .rem rfl a b
    rw [show wordOp .div (a.word n) (b.word n) = none from if_pos hzero] at hdiv
    rw [show wordOp .rem (a.word n) (b.word n) = none from if_pos hzero] at hrem
    exact ⟨hdiv, hrem⟩

/-- The least integer is divided by `-1`. -/
theorem leastInteger_divided : ∃ a b q r, a.signed 32 = -2 ^ 31 ∧ b.signed 32 = -1 ∧ Results 32 .div .i32 [a, b] q ∧
    Results 32 .rem .i32 [a, b] r ∧ q.toInt = -2 ^ 31 ∧ r.toInt = 0 := by
  let a : Value := .ofInt 2147483648
  let b : Value := .ofInt (-1)
  have ha : a.signed 32 = -2 ^ 31 := by decide
  have hb : b.signed 32 = -1 := by decide
  obtain ⟨q, r, hq, hr, hd⟩ := (integer_operations .int a b).2.2.1 (by rw [hb]; decide)
  obtain ⟨hq', hr'⟩ := hd.overflow ⟨ha, hb⟩
  exact ⟨a, b, q, r, ha, hb, hq, hr, hq'.trans ha, hr'⟩

end Bytelift.Machine
