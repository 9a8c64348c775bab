import Bytelift.Text

/-!
# UTF-8

Reading one code point from the front of a text and writing one. A sequence that is too long for its
code point, that names a surrogate or that lies beyond U+10FFFF is no UTF-8, and neither is a lone
continuation byte; of such a sequence only the first byte is taken, as an invalid byte.
-/

namespace Bytelift.Text

/-- What stands at the front of a text: a code point with its bytes, or a byte that starts none. -/
inductive Rune
  | valid (code : Nat) (bytes : Text)
  | invalid (b : UInt8)
  deriving DecidableEq, Repr

/-- Whether a code point may be written in UTF-8. -/
def isScalar (c : Nat) : Bool := c < 0xD800 || (0xE000 ≤ c && c ≤ 0x10FFFF)

/-- The six payload bits of a continuation byte. -/
def continuation? (b : UInt8) : Option Nat :=
  if 0x80 ≤ b && b ≤ 0xBF then some (b.toNat - 0x80) else none

def twoBytes? (b : UInt8) : Text → Option (Nat × Text)
  | b₁ :: _ => do
    let x ← continuation? b₁
    let c := (b.toNat - 0xC0) * 64 + x
    if 0x80 ≤ c then some (c, [b, b₁]) else none
  | _ => none

def threeBytes? (b : UInt8) : Text → Option (Nat × Text)
  | b₁ :: b₂ :: _ => do
    let x ← continuation? b₁
    let y ← continuation? b₂
    let c := (b.toNat - 0xE0) * 4096 + x * 64 + y
    if 0x800 ≤ c && isScalar c then some (c, [b, b₁, b₂]) else none
  | _ => none

def fourBytes? (b : UInt8) : Text → Option (Nat × Text)
  | b₁ :: b₂ :: b₃ :: _ => do
    let x ← continuation? b₁
    let y ← continuation? b₂
    let z ← continuation? b₃
    let c := (b.toNat - 0xF0) * 262144 + x * 4096 + y * 64 + z
    if 0x10000 ≤ c && isScalar c then some (c, [b, b₁, b₂, b₃]) else none
  | _ => none

/-- The code point at the front of `b :: rest`. -/
def rune (b : UInt8) (rest : Text) : Rune :=
  let found :=
    if b < 0x80 then some (b.toNat, [b])
    else if b < 0xC0 then none
    else if b < 0xE0 then twoBytes? b rest
    else if b < 0xF0 then threeBytes? b rest
    else if b < 0xF8 then fourBytes? b rest
    else none
  match found with
  | some (c, bytes) => .valid c bytes
  | none => .invalid b

/-- How many bytes a rune takes. -/
def Rune.width : Rune → Nat
  | .valid _ bytes => bytes.length
  | .invalid _ => 1

/-- The UTF-8 bytes of a code point. -/
def encodeRune (c : Nat) : Text :=
  if c < 0x80 then [c.toUInt8]
  else if c < 0x800 then [(0xC0 + c / 64).toUInt8, (0x80 + c % 64).toUInt8]
  else if c < 0x10000 then
    [(0xE0 + c / 4096).toUInt8, (0x80 + c / 64 % 64).toUInt8, (0x80 + c % 64).toUInt8]
  else
    [(0xF0 + c / 262144).toUInt8, (0x80 + c / 4096 % 64).toUInt8, (0x80 + c / 64 % 64).toUInt8,
      (0x80 + c % 64).toUInt8]

/-- The runes of a text, with `skip` bytes of the rune before still to pass over. -/
def runesFrom : Nat → Text → List Rune → List Rune
  | _, [], acc => acc.reverse
  | skip + 1, _ :: t, acc => runesFrom skip t acc
  | 0, b :: t, acc =>
    let r := rune b t
    runesFrom (r.width - 1) t (r :: acc)

def runes (t : Text) : List Rune := runesFrom 0 t []

/-- Whether a text is UTF-8. -/
def isUtf8 (t : Text) : Bool :=
  (runes t).all fun
    | .valid _ _ => true
    | .invalid _ => false

/-! ## Blanks -/

/-- The code points that count as white space around a word. -/
def isSpace (c : Nat) : Bool :=
  (9 ≤ c && c ≤ 13) || c == 0x20 || c == 0x85 || c == 0xA0 || c == 0x1680 ||
    (0x2000 ≤ c && c ≤ 0x200A) || c == 0x2028 || c == 0x2029 || c == 0x202F || c == 0x205F ||
    c == 0x3000

def Rune.isSpace : Rune → Bool
  | .valid c _ => Text.isSpace c
  | .invalid _ => false

def Rune.bytes : Rune → Text
  | .valid _ bytes => bytes
  | .invalid b => [b]

def trimSpace (t : Text) : Text :=
  let inner := (runes t).dropWhile Rune.isSpace
  let kept := (inner.reverse.dropWhile Rune.isSpace).reverse
  kept.flatMap Rune.bytes

end Bytelift.Text
