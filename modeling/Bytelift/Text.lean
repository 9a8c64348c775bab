/-!
# Text as bytes

Every name, descriptor, source line and message of this library is a list of bytes. Class names and
string constants may hold any bytes, also bytes that are no UTF-8, so `String` would be too narrow.
String literals are read as their UTF-8 bytes.

The operations here are the few that the rest of the library shares: numbers in decimal and
hexadecimal, joining, and cutting at a byte. `Text.lines` splits a source at line feeds and enforces
the limit on the length of a line.
-/

namespace Bytelift

/-- A piece of text: a list of bytes. -/
abbrev Text := List UInt8

instance : Coe String Text := ⟨fun s => s.toUTF8.data.toList⟩

namespace Text

/-- The UTF-8 bytes of a string. -/
def ofString (s : String) : Text := s

/-- The byte of an ASCII character. -/
def byte (c : Char) : UInt8 := c.toNat.toUInt8

/-! ## Numbers -/

/-- A natural number in decimal. -/
def ofNat (n : Nat) : Text := (Nat.toDigits 10 n).map byte

/-- An integer in decimal, with a minus sign if it is negative. -/
def ofInt (i : Int) : Text :=
  match i with
  | .ofNat n => ofNat n
  | .negSucc n => byte '-' :: ofNat (n + 1)

/-- The lower-case hexadecimal digit of a number below sixteen. -/
def hexDigit (n : Nat) : UInt8 := if n < 10 then (48 + n).toUInt8 else (87 + n).toUInt8

/-- The low `width` hexadecimal digits of `n`, most significant first. -/
def hexFixed (width n : Nat) : Text :=
  (List.range width).reverse.map fun i => hexDigit (n / Nat.pow 16 i % 16)

/-- Two hexadecimal digits for each byte. -/
def hexOfBytes (bs : List UInt8) : Text := bs.flatMap fun b => hexFixed 2 b.toNat

/-! ## Joining and cutting -/

/-- The items of a list with a separator between them. -/
def join (sep : Text) : List Text → Text
  | [] => []
  | [t] => t
  | t :: ts => t ++ sep ++ join sep ts

/-- The items of a list in square brackets with blanks between them. -/
def bracketed (ts : List Text) : Text := "[" ++ join " " ts ++ "]"

/-- `true` or `false`. -/
def ofBool (b : Bool) : Text := if b then "true" else "false"

/-- The text before and after the first occurrence of a byte. -/
def cutAt (b : UInt8) (t : Text) : Option (Text × Text) :=
  match t.dropWhile (· != b) with
  | [] => none
  | _ :: after => some (t.takeWhile (· != b), after)

/-- The text before and after the last occurrence of a byte. -/
def cutAtLast (b : UInt8) (t : Text) : Option (Text × Text) :=
  (cutAt b t.reverse).map fun (after, before) => (before.reverse, after.reverse)

/-- The parts of a text between the occurrences of a byte; always one at least. -/
def partsAt (b : UInt8) : Text → List Text
  | [] => [[]]
  | c :: t =>
    if c = b then [] :: partsAt b t
    else
      match partsAt b t with
      | [] => [[c]]
      | p :: ps => (c :: p) :: ps

/-- The text without a suffix, if it ends in it. -/
def trimSuffix (t suffix : Text) : Text :=
  if suffix.isSuffixOf t then t.take (t.length - suffix.length) else t

/-- Whether `part` occurs somewhere in the text. -/
def hasPart (part : Text) : Text → Bool
  | [] => part.isEmpty
  | b :: t => part.isPrefixOf (b :: t) || hasPart part t

/-- The lexicographic order of the bytes. -/
def le (a b : Text) : Bool := !(decide (b < a))

/-! ## Lines -/

/-- A line longer than this many bytes is refused, its line feed included. -/
def lineLimit : Nat := 65536

/-- The lines of a source, and whether reading stopped at a line beyond the limit. -/
structure Lines where
  lines : List Text
  tooLong : Bool
  deriving DecidableEq, Repr

/-- A line read backwards, without a carriage return at its end. -/
def finishLine (rev : Text) : Text :=
  match rev with
  | 13 :: r => r.reverse
  | r => r.reverse

/-- The pieces of a text between line feeds, with the piece being read and the finished pieces held
backwards. A last piece without a line feed counts if it is not empty. -/
def splitLines : Text → Text → List Text → List Text
  | [], [], acc => acc.reverse
  | [], rev, acc => (rev :: acc).reverse
  | b :: t, rev, acc =>
    if b = 10 then splitLines t [] (rev :: acc) else splitLines t (b :: rev) acc

/-- The lines of a source up to the first one that is too long. -/
def lines (t : Text) : Lines :=
  let pieces := splitLines t [] []
  let fitting := pieces.takeWhile (·.length < lineLimit)
  { lines := fitting.map finishLine, tooLong := fitting.length < pieces.length }

end Text
end Bytelift
