import Bytelift.Number.Double
import Bytelift.Number.Integer

/-!
# Decimal text of floating point numbers

Writing uses the fewest digits that read back: `shortest` tries 1, 2, … 17 digits, and on each decimal
grid the two neighbours of the number. A neighbour reads back when it lies in the interval of reals
that round to the number. Of two that do, the nearer one is taken, and the even one if they are
equally near. Numbers whose first digit stands for less than 10⁻⁴ or for 10⁶ and more are written with
an exponent.

Reading takes decimal and hexadecimal numbers, underscores between digits, and the names of infinity
and of NaN in any case.
-/

namespace Bytelift.Number

open Text (byte)

/-! ## Writing -/

/-- A positive number as `digits * 10 ^ exponent`. -/
structure Decimal where
  digits : Nat
  exponent : Int
  deriving DecidableEq, Repr

/-- A finite positive double between the ends of its rounding interval, over a common unit: the lower
end, the number and the upper end are `low`, `mid` and `high` times `2 ^ exponent`. -/
structure Interval where
  low : Nat
  mid : Nat
  high : Nat
  exponent : Int
  closed : Bool
  deriving DecidableEq, Repr

/-- The rounding interval of `m * 2 ^ e`. Below a power of two the gap is half as wide. -/
def Interval.of (m : Nat) (e : Int) : Interval :=
  let narrow : Bool := m = Nat.pow 2 52 ∧ e ≠ -1074
  ⟨if narrow then 4 * m - 1 else 4 * m - 2, 4 * m, 4 * m + 2, e - 2, m % 2 = 0⟩

/-- Compares `a * 10 ^ k` with `b * 2 ^ e`. -/
def compareScaled (a : Nat) (k : Int) (b : Nat) (e : Int) : Ordering :=
  compare (a * Nat.pow 10 k.toNat * Nat.pow 2 (-e).toNat)
    (b * Nat.pow 2 e.toNat * Nat.pow 10 (-k).toNat)

/-- Whether a decimal rounds to the number of an interval. -/
def Interval.holds (i : Interval) (d : Decimal) : Bool :=
  let low := compareScaled d.digits d.exponent i.low i.exponent
  let high := compareScaled d.digits d.exponent i.high i.exponent
  (low == .gt || (i.closed && low == .eq)) && (high == .lt || (i.closed && high == .eq))

/-- The largest `n` with `n * 10 ^ k` at most `m * 2 ^ e`. -/
def floorScaled (m : Nat) (e k : Int) : Nat :=
  (m * Nat.pow 2 e.toNat * Nat.pow 10 (-k).toNat) / (Nat.pow 2 (-e).toNat * Nat.pow 10 k.toNat)

def digitCount (n : Nat) : Nat := (Nat.toDigits 10 n).length

/-- The exponent of the first decimal digit of `m * 2 ^ e`. -/
def leadingDigit (m : Nat) (e : Int) : Int :=
  let n := floorScaled m e 0
  if n ≠ 0 then (digitCount n : Int) - 1
  else (digitCount (floorScaled m e (-340)) : Int) - 341

/-- The neighbour on the grid `10 ^ k` that reads back, the nearer of two. -/
def neighbour? (i : Interval) (k : Int) : Option Decimal :=
  let n := floorScaled i.mid i.exponent k
  let down : Decimal := ⟨n, k⟩
  let up : Decimal := ⟨n + 1, k⟩
  match i.holds down, i.holds up with
  | true, false => some down
  | false, true => some up
  | false, false => none
  | true, true =>
    match compareScaled (2 * n + 1) k (2 * i.mid) i.exponent with
    | .lt => some up
    | .gt => some down
    | .eq => some (if n % 2 = 0 then down else up)

/-- The decimal with the fewest digits that reads back as `m * 2 ^ e`, `m` positive. -/
def shortest (m : Nat) (e : Int) : Decimal :=
  let i := Interval.of m e
  let first := leadingDigit m e
  ((List.range 18).findSome? fun (n : Nat) => neighbour? i (first - n)).getD ⟨0, 0⟩

/-- The digits of a decimal without zeros at their end. -/
def Decimal.text (d : Decimal) : Text :=
  ((Text.ofNat d.digits).reverse.dropWhile (· == byte '0')).reverse

/-- An exponent with a sign and at least two digits. -/
def exponentText (e : Int) : Text :=
  let n := Text.ofNat e.natAbs
  (if e < 0 then [byte '-'] else [byte '+']) ++ List.replicate (2 - n.length) (byte '0') ++ n

/-- The digits behind the point, with the point if there are any. -/
def fractionText (digits : Text) : Text := if digits.isEmpty then [] else "." ++ digits

/-- Writes digits whose first one stands for `10 ^ first`. -/
def layout (digits : Text) (first : Int) : Text :=
  if first < -4 ∨ 6 ≤ first then
    digits.take 1 ++ fractionText (digits.drop 1) ++ "e" ++ exponentText first
  else if first < 0 then
    "0." ++ List.replicate ((-first).toNat - 1) (byte '0') ++ digits
  else
    let whole := first.toNat + 1
    digits.take whole ++ List.replicate (whole - digits.length) (byte '0') ++
      fractionText (digits.drop whole)

def floatText (x : Double) : Text :=
  let sign : Text := if x.negative then "-" else []
  if x.isNaN then "NaN"
  else if x.isInfinite then if x.negative then "-Inf" else "+Inf"
  else if x.magnitude = 0 then sign ++ "0"
  else
    let (m, e) := x.scaled
    let d := shortest m e
    sign ++ layout d.text ((digitCount d.digits : Int) - 1 + d.exponent)

/-! ## Reading -/

/-- The significand of a literal: its digits as one number, how many of them there are, how many
stand behind the point, and what follows. -/
structure Significand where
  value : Nat
  count : Nat
  behind : Nat
  rest : Text

/-- Reads the digits of a significand and at most one point. -/
def significandFrom (base : Nat) (pointSeen : Bool) (s : Significand) : Text → Significand
  | [] => { s with rest := [] }
  | b :: t =>
    if b = byte '_' then significandFrom base pointSeen s t
    else if b = byte '.' ∧ !pointSeen then significandFrom base true s t
    else if isDigit b || (base = 16 && isHexLetter b) then
      let d := (digitValue? b).getD 0
      significandFrom base pointSeen
        ⟨s.value * base + d, s.count + 1, if pointSeen then s.behind + 1 else s.behind, []⟩ t
    else { s with rest := b :: t }

/-- Follows the digits of an exponent; beyond 10000 further digits no longer count. -/
def exponentFrom : Text → Nat → Nat × Text
  | [], acc => (acc, [])
  | b :: t, acc =>
    if isDigit b then exponentFrom t (if acc < 10000 then acc * 10 + (b.toNat - 48) else acc)
    else if b = byte '_' then exponentFrom t acc
    else (acc, b :: t)

/-- Reads the exponent behind a mark, if the mark is there; `none` if digits are missing. -/
def readExponent? (mark : Char) (required : Bool) : Text → Option (Int × Text)
  | [] => if required then none else some (0, [])
  | b :: t =>
    if lower b = byte mark then
      let (negative, digits) := splitSign t
      match digits with
      | d :: _ =>
        if isDigit d then
          let (e, rest) := exponentFrom digits 0
          some (if negative then -(e : Int) else e, rest)
        else none
      | [] => none
    else if required then none
    else some (0, b :: t)

/-- The magnitude bits of `value * 10 ^ exponent`; far beyond the range of the format the answer does
not need the power. -/
def roundDecimal (f : Format) (value : Nat) (exponent : Int) : Nat :=
  let first := (digitCount value : Int) + exponent
  if value = 0 ∨ first < -400 then 0
  else if 400 < first then f.infinity
  else f.round (value * Nat.pow 10 exponent.toNat) (Nat.pow 10 (-exponent).toNat)

/-- The magnitude bits of `value * 2 ^ exponent`. -/
def roundBinary (f : Format) (value : Nat) (exponent : Int) : Nat :=
  let first := (value.log2 : Int) + exponent
  if value = 0 ∨ first < -2000 then 0
  else if 2000 < first then f.infinity
  else f.roundScaled value exponent

def readDigits (f : Format) (t : Text) : Except NumberFault Nat :=
  let hex := match t with
    | 48 :: x :: _ :: _ => lower x = byte 'x'
    | _ => false
  let base := if hex then 16 else 10
  let s := significandFrom base false ⟨0, 0, 0, []⟩ (if hex then t.drop 2 else t)
  if s.count = 0 then .error .malformed
  else
    match readExponent? (if hex then 'p' else 'e') hex s.rest with
    | none => .error .malformed
    | some (e, rest) =>
      if !rest.isEmpty || (t.contains (byte '_') && !underscoresOk t) then .error .malformed
      else
        let bits :=
          if hex then roundBinary f s.value (e - 4 * s.behind)
          else roundDecimal f s.value (e - s.behind)
        if bits = f.infinity then .error .outOfRange else .ok bits

/-- Whether a text is a name, whatever the case of its letters. -/
def isName (name t : Text) : Bool :=
  t.map (fun b => if 65 ≤ b && b ≤ 90 then b + 32 else b) == name

/-- The number of a format with this sign and these magnitude bits, as a double. -/
def fromFormat (f : Format) (negative : Bool) (bits : Nat) : Double :=
  if f.precision = 53 then Double.pack negative bits
  else Double.ofSingleBits (if negative then f.signBit + bits else bits)

/-- Reads a floating point number of a format; a single precision number is given as the double it
equals. -/
def readFloat (f : Format) (t : Text) : Except NumberError Double :=
  let (negative, rest) := splitSign t
  if isName "nan" t then .ok (if f.precision = 53 then Double.nan else Double.nan.toSingle)
  else if isName "inf" rest || isName "infinity" rest then .ok (fromFormat f negative f.infinity)
  else
    match readDigits f rest with
    | .error fault => .error ⟨.float, t, fault⟩
    | .ok bits => .ok (fromFormat f negative bits)

end Bytelift.Number
