import Bytelift.Text.Printable
import Bytelift.Text.Utf8

/-!
# Quoted text

Text between double quotes, as messages and string constants show it. Printable code points stand for
themselves; the quote and the backslash get a backslash in front; the other code points are escaped by
letter (`\n`), by byte (`\x00`, also for bytes that are no UTF-8) or by code point (`\u200b`).

`quote` writes this form and `unquote?` reads it. Reading also takes three octal digits.
-/

namespace Bytelift.Text

def escapeLetter? (c : Nat) : Option UInt8 :=
  match c with
  | 7 => some (byte 'a')
  | 8 => some (byte 'b')
  | 9 => some (byte 't')
  | 10 => some (byte 'n')
  | 11 => some (byte 'v')
  | 12 => some (byte 'f')
  | 13 => some (byte 'r')
  | _ => none

/-- A code point as it stands between quotes of the given kind. -/
def escapeCode (mark : Char) (c : Nat) (bytes : Text) : Text :=
  if c = mark.toNat ∨ c = 92 then [92, c.toUInt8]
  else if isPrintable c then bytes
  else match escapeLetter? c with
    | some l => [92, l]
    | none =>
      if c < 0x20 ∨ c = 0x7F then "\\x" ++ hexFixed 2 c
      else if c < 0x10000 then "\\u" ++ hexFixed 4 c
      else "\\U" ++ hexFixed 8 c

/-- A rune as it stands between quotes of the given kind. -/
def escapeRune (mark : Char) : Rune → Text
  | .valid c bytes => escapeCode mark c bytes
  | .invalid b => "\\x" ++ hexFixed 2 b.toNat

def quote (t : Text) : Text := "\"" ++ (runes t).flatMap (escapeRune '"') ++ "\""

/-- A code point below 256 between single quotes. -/
def quoteByte (b : UInt8) : Text :=
  "'" ++ escapeCode '\'' b.toNat (encodeRune b.toNat) ++ "'"

/-! ## Reading -/

/-- The value of a hexadecimal digit of either case. -/
def hexValue? (b : UInt8) : Option Nat :=
  if 48 ≤ b && b ≤ 57 then some (b.toNat - 48)
  else if 97 ≤ b && b ≤ 102 then some (b.toNat - 87)
  else if 65 ≤ b && b ≤ 70 then some (b.toNat - 55)
  else none

/-- The number that a list of digits writes in a base, given the value of a digit. -/
def digitsValue? (base : Nat) (value? : UInt8 → Option Nat) : Text → Nat → Option Nat
  | [], acc => some acc
  | b :: t, acc => do
    let d ← value? b
    digitsValue? base value? t (acc * base + d)

def octalValue? (b : UInt8) : Option Nat :=
  if 48 ≤ b && b ≤ 55 then some (b.toNat - 48) else none

/-- A code point written with exactly `n` hexadecimal digits. -/
def codeEscape? (n : Nat) (t : Text) : Option (Text × Nat) :=
  if t.length < n then none
  else do
    let c ← digitsValue? 16 hexValue? (t.take n) 0
    if isScalar c then some (encodeRune c, n) else none

/-- What an escape stands for and how many bytes after its letter it takes. -/
def escape? (letter : UInt8) (t : Text) : Option (Text × Nat) :=
  match Char.ofNat letter.toNat with
  | 'a' => some ([7], 0)
  | 'b' => some ([8], 0)
  | 't' => some ([9], 0)
  | 'n' => some ([10], 0)
  | 'v' => some ([11], 0)
  | 'f' => some ([12], 0)
  | 'r' => some ([13], 0)
  | '\\' => some ([92], 0)
  | '"' => some ([34], 0)
  | 'x' =>
    if t.length < 2 then none
    else (digitsValue? 16 hexValue? (t.take 2) 0).map fun v => ([v.toUInt8], 2)
  | 'u' => codeEscape? 4 t
  | 'U' => codeEscape? 8 t
  | _ => do
    let d ← octalValue? letter
    if t.length < 2 then none
    else
      let v ← digitsValue? 8 octalValue? (t.take 2) d
      if v ≤ 255 then some ([v.toUInt8], 2) else none

/-- Reads the inside of a quoted text up to its closing quote, which must end it. The first argument
counts bytes that belong to the escape or code point before. -/
def unquoteFrom : Nat → Text → Text → Option Text
  | _, [], _ => none
  | skip + 1, _ :: t, acc => unquoteFrom skip t acc
  | 0, b :: t, acc =>
    if b = 34 then if t.isEmpty then some acc.reverse else none
    else if b = 10 then none
    else if b = 92 then
      match t with
      | [] => none
      | letter :: rest =>
        match escape? letter rest with
        | none => none
        | some (value, width) => unquoteFrom (width + 1) t (value.reverse ++ acc)
    else
      match rune b t with
      | .valid _ bytes => unquoteFrom (bytes.length - 1) t (bytes.reverse ++ acc)
      | .invalid _ => unquoteFrom 0 t ((encodeRune 0xFFFD).reverse ++ acc)

def unquote? : Text → Option Text
  | 34 :: t => unquoteFrom 0 t []
  | _ => none

end Bytelift.Text
