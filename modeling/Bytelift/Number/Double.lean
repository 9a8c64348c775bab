import Bytelift.Text

/-!
# Binary floating point

A double is its sixty-four bits, so two doubles are equal exactly when their bits are, and the
payload of a NaN is kept. Single precision values are held as the doubles they equal.

Rounding works on exact quotients: `Format.round` finds the multiple of a power of two nearest to a
quotient, ties to even, and packs it. The bits of a finite number grow with it, so packing is one sum
and overflow is reaching the bits of infinity. Conversions and the remainder are exact in this way;
the four operations are those of the machine.
-/

namespace Bytelift

/-- A binary interchange format: the bits of the significand and the exponent of its last place for
the smallest numbers, and the number of exponent bits. -/
structure Format where
  precision : Nat
  minExponent : Int
  exponentBits : Nat
  deriving DecidableEq, Repr

namespace Format

def double : Format := ⟨53, -1074, 11⟩

def single : Format := ⟨24, -149, 8⟩

def infinity (f : Format) : Nat := (Nat.pow 2 f.exponentBits - 1) * Nat.pow 2 (f.precision - 1)

def signBit (f : Format) : Nat := Nat.pow 2 (f.precision - 1 + f.exponentBits)

/-- The exponent of the leading bit of `num / den`, both positive. -/
def leading (num den : Nat) : Int :=
  let l : Int := (num.log2 : Int) - (den.log2 : Int)
  let below := if 0 ≤ l then num < den * Nat.pow 2 l.toNat else num * Nat.pow 2 (-l).toNat < den
  if below then l - 1 else l

/-- The quotient of two numbers rounded to the nearest integer, a half to the even one. -/
def roundQuotient (num den : Nat) : Nat :=
  let q := num / den
  let r := num % den
  if den < 2 * r ∨ (2 * r = den ∧ q % 2 = 1) then q + 1 else q

/-- The magnitude bits of the number nearest to `num / den`; at most those of infinity. -/
def round (f : Format) (num den : Nat) : Nat :=
  if num = 0 then 0
  else
    let e := max (leading num den - (f.precision - 1 : Nat)) f.minExponent
    let n :=
      if 0 ≤ e then roundQuotient num (den * Nat.pow 2 e.toNat)
      else roundQuotient (num * Nat.pow 2 (-e).toNat) den
    min f.infinity ((e - f.minExponent).toNat * Nat.pow 2 (f.precision - 1) + n)

/-- The magnitude bits of the number nearest to `m * 2 ^ e`. -/
def roundScaled (f : Format) (m : Nat) (e : Int) : Nat :=
  if 0 ≤ e then f.round (m * Nat.pow 2 e.toNat) 1 else f.round m (Nat.pow 2 (-e).toNat)

end Format

/-- A double precision number by its bits. -/
structure Double where
  bits : UInt64
  deriving DecidableEq, Repr, Inhabited

instance : Hashable Double := ⟨fun x => x.bits⟩

namespace Double

def zero : Double := ⟨0⟩

def pack (negative : Bool) (magnitude : Nat) : Double :=
  ⟨(if negative then Format.double.signBit + magnitude else magnitude).toUInt64⟩

/-- Whether the sign bit is set. -/
def negative (x : Double) : Bool := x.bits >>> 63 = 1

/-- The bits without the sign. -/
def magnitude (x : Double) : Nat := (x.bits &&& 0x7FFFFFFFFFFFFFFF).toNat

/-- Whether the bits stand for no number. -/
def isNaN (x : Double) : Bool := Format.double.infinity < x.magnitude

def isInfinite (x : Double) : Bool := x.magnitude = Format.double.infinity

/-- The magnitude of a finite number as `m * 2 ^ e`. -/
def scaled (x : Double) : Nat × Int :=
  let biased : Nat := x.magnitude / Nat.pow 2 52
  let fraction := x.magnitude % Nat.pow 2 52
  if biased = 0 then (fraction, -1074) else (Nat.pow 2 52 + fraction, (biased : Int) - 1075)

/-! ## Arithmetic -/

/-- The machine number with these bits. -/
def toFloat (x : Double) : Float := Float.ofBits x.bits

/-- The bits of a machine number. -/
def ofFloat (x : Float) : Double := ⟨x.toBits⟩

def add (x y : Double) : Double := ofFloat (x.toFloat + y.toFloat)
def sub (x y : Double) : Double := ofFloat (x.toFloat - y.toFloat)
def mul (x y : Double) : Double := ofFloat (x.toFloat * y.toFloat)
def div (x y : Double) : Double := ofFloat (x.toFloat / y.toFloat)

/-- The number with its sign changed. -/
def neg (x : Double) : Double := ⟨x.bits ^^^ 0x8000000000000000⟩

/-- A NaN. -/
def nan : Double := ⟨0x7FF8000000000001⟩

/-- The remainder of the division that rounds towards zero; it has the sign of the dividend. -/
def rem (x y : Double) : Double :=
  if x.isNaN || y.isNaN || x.isInfinite || y.magnitude == 0 then nan
  else if y.isInfinite then x
  else
    let (m, e) := x.scaled
    let (n, d) := y.scaled
    let least := min e d
    let r := (m * Nat.pow 2 (e - least).toNat) % (n * Nat.pow 2 (d - least).toNat)
    pack x.negative (Format.double.roundScaled r least)

/-- Whether one number is below another; never with a NaN. -/
def lt (x y : Double) : Bool := x.toFloat < y.toFloat

/-! ## Single precision -/

/-- The bits of the nearest single precision number. A NaN keeps the front of its payload and
becomes quiet. -/
def toSingleBits (x : Double) : Nat :=
  let m :=
    if x.isNaN then
      Format.single.infinity + (Nat.pow 2 22 ||| x.magnitude % Nat.pow 2 52 / Nat.pow 2 29)
    else if x.isInfinite then Format.single.infinity
    else
      let (m, e) := x.scaled
      Format.single.roundScaled m e
  if x.negative then Format.single.signBit + m else m

/-- The double that equals a single precision number. -/
def ofSingleBits (b : Nat) : Double :=
  let m := b % Nat.pow 2 31
  let biased : Nat := m / Nat.pow 2 23
  let fraction := m % Nat.pow 2 23
  let magnitude :=
    if biased = 255 then
      if fraction = 0 then Format.double.infinity
      else Format.double.infinity + (Nat.pow 2 51 ||| fraction * Nat.pow 2 29)
    else if biased = 0 then Format.double.roundScaled fraction (-149)
    else Format.double.roundScaled (Nat.pow 2 23 + fraction) ((biased : Int) - 150)
  pack (b / Nat.pow 2 31 = 1) magnitude

/-- The number rounded to single precision. -/
def toSingle (x : Double) : Double := ofSingleBits x.toSingleBits

/-! ## Integers -/

/-- The double nearest to an integer. -/
def ofInt (i : Int) : Double := pack (i < 0) (Format.double.round i.natAbs 1)

/-- The single precision number nearest to an integer. -/
def singleOfInt (i : Int) : Double :=
  let m := Format.single.round i.natAbs 1
  ofSingleBits (if i < 0 then Format.single.signBit + m else m)

/-- The integer part of a finite number. -/
def truncate (x : Double) : Int :=
  let (m, e) := x.scaled
  let n : Nat := if 0 ≤ e then m * Nat.pow 2 e.toNat else m / Nat.pow 2 (-e).toNat
  if x.negative then -(n : Int) else n

/-- The integer part within the bounds of a signed word of `bits` bits; zero for a NaN. -/
def saturate (bits : Nat) (x : Double) : Int :=
  let low : Int := -(Nat.pow 2 (bits - 1) : Nat)
  let high : Int := (Nat.pow 2 (bits - 1) : Nat) - 1
  if x.isNaN then 0
  else if x.isInfinite then if x.negative then low else high
  else max low (min high x.truncate)

end Double
end Bytelift
