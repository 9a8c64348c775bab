import Bytelift.Text.Utf8

/-!
# Characters of a YAML text

A YAML text is a list of characters. Five characters and one pair of characters break a line; a blank is
a space or a tab. The bytes of a text are read in parts, and a part in which a character is not allowed
is refused as a whole.
-/

namespace Bytelift.Yaml

/-- Whether a character may stand in a text at all. -/
def isAllowed (c : Nat) : Bool :=
  c = 0x9 || c = 0xA || c = 0xD || (0x20 ≤ c && c ≤ 0x7E) || c = 0x85 || (0xA0 ≤ c && c ≤ 0xD7FF) ||
    (0xE000 ≤ c && c ≤ 0xFFFD) || 0x10000 ≤ c

def isBlank (c : Char) : Bool := c = ' ' || c = '\t'

def isBreak (c : Char) : Bool :=
  c = '\n' || c = '\r' || c = '\u0085' || c = '\u2028' || c = '\u2029'

def isPlainBreak (c : Char) : Bool := c = '\n' || c = '\r'

/-- Whether a text starts with a blank or a line break, or is at its end. -/
def startsBlank : List Char → Bool
  | [] => true
  | c :: _ => isBlank c || isBreak c

def isNameChar (c : Char) : Bool := c.isAlphanum || c = '_' || c = '-'

/-- The mark of the byte order, which may stand in front of a text. -/
def orderMark : Char := '\ufeff'

def bytesOf (cs : List Char) : Text := cs.flatMap fun c => Text.encodeRune c.toNat

/-! ## Parts -/

/-- How many bytes a part has at most. -/
def partSize : Nat := 512

/-- The characters of a text up to the first part that is refused, and how many there are in each part;
`none` stands for the part that is refused. -/
structure Contents where
  characters : List Char
  parts : List (Option Nat)

/-- The character that a rune stands for, if it is allowed. -/
def allowed? : Text.Rune → Option Char
  | .valid c _ => if isAllowed c then some (Char.ofNat c) else none
  | .invalid _ => none

/-- Reads the characters of a text. `stop` is the end of the current part and `size` the number of its
characters so far; the characters and the sizes of the parts before it are held backwards. -/
def contentsFrom : List Text.Rune → (offset stop : Nat) → (chars : List Char) → (size : Nat) →
    (sizes : List (Option Nat)) → Contents
  | [], _, _, chars, size, sizes => ⟨chars.reverse, (some size :: sizes).reverse⟩
  | r :: rs, offset, stop, chars, size, sizes =>
    let isNew := stop < offset + r.width
    let stop := if isNew then offset + partSize else stop
    let sizes := if isNew then some size :: sizes else sizes
    let size := if isNew then 0 else size
    match allowed? r with
    | some c => contentsFrom rs (offset + r.width) stop (c :: chars) (size + 1) sizes
    | none => ⟨(chars.drop size).reverse, (none :: sizes).reverse⟩

/-- The contents of a text without a mark of the byte order in front of it. -/
def contents (t : Text) : Contents :=
  let mark := bytesOf [orderMark]
  if mark.isPrefixOf t then contentsFrom (Text.runes (t.drop mark.length)) mark.length partSize [] 0 []
  else contentsFrom (Text.runes t) 0 partSize [] 0 []

end Bytelift.Yaml
