import Bytelift.Text.Quoted

/-!
# Integer literals

An integer literal has an optional sign and digits. A leading `0x`, `0o`, `0b` or a bare `0` sets the
base to 16, 8, 2 or 8. Underscores may stand between digits and after the base mark. A literal is
refused when it is badly formed or when its value does not fit the width asked for. The value is
followed digit by digit, so a literal that leaves the width before its first bad character counts as
too large.
-/

namespace Bytelift

inductive NumberFault
  | malformed
  | outOfRange
  deriving DecidableEq, Repr

inductive NumberReader
  | integer
  | float
  deriving DecidableEq, Repr

/-- A refused number: the reader, the text it was given, and the reason. -/
structure NumberError where
  reader : NumberReader
  text : Text
  fault : NumberFault
  deriving DecidableEq, Repr

/-- The wording of a reason. -/
def NumberFault.message : NumberFault → Text
  | .malformed => "invalid syntax"
  | .outOfRange => "value out of range"

def NumberReader.name : NumberReader → Text
  | .integer => "ParseInt"
  | .float => "ParseFloat"

def NumberError.message (e : NumberError) : Text :=
  "strconv." ++ e.reader.name ++ ": parsing " ++ e.text.quote ++ ": " ++ e.fault.message

namespace Number

open Text (byte)

/-- An ASCII letter in lower case. -/
def lower (b : UInt8) : UInt8 := b ||| 0x20

/-- Whether a byte is a decimal digit. -/
def isDigit (b : UInt8) : Bool := 48 ≤ b && b ≤ 57

/-- Whether a byte is a hexadecimal digit that is a letter. -/
def isHexLetter (b : UInt8) : Bool := 97 ≤ lower b && lower b ≤ 102

def digitValue? (b : UInt8) : Option Nat :=
  if isDigit b then some (b.toNat - 48)
  else if 97 ≤ lower b && lower b ≤ 122 then some ((lower b).toNat - 87)
  else none

/-! ## Underscores -/

/-- The last thing seen while underscores are checked. -/
inductive Seen
  | start
  | digit
  | underscore
  | other
  deriving DecidableEq

/-- Whether every underscore follows a digit and is followed by one. -/
def underscoresFrom (hex : Bool) : Seen → Text → Bool
  | seen, [] => seen ≠ .underscore
  | seen, b :: t =>
    if isDigit b || (hex && isHexLetter b) then underscoresFrom hex .digit t
    else if b = byte '_' then seen = .digit && underscoresFrom hex .underscore t
    else seen ≠ .underscore && underscoresFrom hex .other t

/-- Whether the underscores of an unsigned literal are well placed. A base mark counts as a digit. -/
def underscoresOk (t : Text) : Bool :=
  match t with
  | 48 :: m :: rest =>
    if lower m = byte 'b' ∨ lower m = byte 'o' ∨ lower m = byte 'x' then
      underscoresFrom (lower m = byte 'x') .digit rest
    else underscoresFrom false .start t
  | _ => underscoresFrom false .start t

/-! ## Digits -/

/-- Follows the digits of a literal; `limit` is the largest magnitude. -/
def magnitudeFrom (base limit : Nat) : Text → Nat → Except NumberFault Nat
  | [], acc => .ok acc
  | b :: t, acc =>
    if b = byte '_' then magnitudeFrom base limit t acc
    else match digitValue? b with
      | none => .error .malformed
      | some d =>
        if base ≤ d then .error .malformed
        else if limit < acc * base + d then .error .outOfRange
        else magnitudeFrom base limit t (acc * base + d)

/-- The base of an unsigned literal and its digits. -/
def splitBase (t : Text) : Nat × Text :=
  match t with
  | 48 :: m :: d :: rest =>
    if lower m = byte 'b' then (2, d :: rest)
    else if lower m = byte 'o' then (8, d :: rest)
    else if lower m = byte 'x' then (16, d :: rest)
    else (8, m :: d :: rest)
  | 48 :: rest => (8, rest)
  | _ => (10, t)

/-- The magnitude of an unsigned literal of at most `bits` bits. -/
def magnitude (bits : Nat) (t : Text) : Except NumberFault Nat :=
  if t.isEmpty then .error .malformed
  else
    let (base, digits) := splitBase t
    match magnitudeFrom base (Nat.pow 2 bits - 1) digits 0 with
    | .error e => .error e
    | .ok n => if t.contains (byte '_') && !underscoresOk t then .error .malformed else .ok n

/-- The sign of a literal and what follows it. -/
def splitSign : Text → Bool × Text
  | 43 :: t => (false, t)
  | 45 :: t => (true, t)
  | t => (false, t)

/-- The value of a signed magnitude, if it fits `bits` bits in two's complement. -/
def signed (bits : Nat) (negative : Bool) (n : Nat) : Except NumberFault Int :=
  let bound := Nat.pow 2 (bits - 1)
  if negative then if bound < n then .error .outOfRange else .ok (-(n : Int))
  else if bound ≤ n then .error .outOfRange else .ok n

/-- Reads an integer literal of at most `bits` bits. -/
def readInteger (bits : Nat) (t : Text) : Except NumberError Int :=
  let (negative, rest) := splitSign t
  match magnitude bits rest >>= signed bits negative with
  | .error fault => .error ⟨.integer, t, fault⟩
  | .ok i => .ok i

/-- Reads a plain decimal number of 64 bits: a sign and digits, nothing else. -/
def readPlain? (t : Text) : Option Int :=
  let (negative, rest) := splitSign t
  if rest.isEmpty || !rest.all isDigit then none
  else
    match magnitudeFrom 10 (Nat.pow 2 64 - 1) rest 0 >>= signed 64 negative with
    | .error _ => none
    | .ok i => some i

end Number
end Bytelift
