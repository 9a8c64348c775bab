import Bytelift.Number.Integer

/-!
# TOML values

The part of a TOML document below the level of lines: keys, values and entries. The grammar is an
ordered choice: an alternative that matches is never taken back, and an alternative that fails gives back
what it read, its line feeds included.

Numbers and dates are kept as they are written, since only the reader of a field knows its range.
-/

namespace Bytelift.Toml

mutual

/-- A value. A table knows the line on which it starts. -/
inductive Value
  | datetime (written : Text)
  | float (written : Text)
  | integer (written : Text)
  | string (t : Text)
  | boolean (b : Bool)
  | array (items : List Value)
  | table (line : Nat) (entries : List Entry)

/-- A key with its value, and the line on which the value ends. -/
inductive Entry
  | mk (key : Text) (value : Value) (line : Nat)

end

/-- The unread rest of a document and the number of its line. -/
structure Cursor where
  rest : Text
  line : Nat := 1
  deriving DecidableEq, Repr

/-- A reader of a part of a document. -/
abbrev Parse := StateT Cursor Option

/-! ## Bytes -/

def byteOf (p : UInt8 → Bool) : Parse UInt8 := fun s =>
  match s.rest with
  | b :: r => if p b then some (b, { s with rest := r }) else none
  | [] => none

def word (t : Text) : Parse Unit := fun s =>
  if t.isPrefixOf s.rest then some ((), { s with rest := s.rest.drop t.length }) else none

/-- Reads all bytes of a class that follow. -/
def span (p : UInt8 → Bool) : Parse Text := fun s =>
  some (s.rest.takeWhile p, { s with rest := s.rest.dropWhile p })

def maybe {α : Type} (p : Parse α) : Parse Unit := (do let _ ← p) <|> pure ()

/-- Reads a part as often as it is there, at most as often as the first argument says. -/
def repeated {α : Type} (p : Parse α) : Nat → Parse (List α)
  | 0 => pure []
  | n + 1 =>
    (do
      let a ← p
      return a :: (← repeated p n)) <|> pure []

/-- Reads a part as often as it is there. Each time at least one byte has to be read. -/
def many {α : Type} (p : Parse α) : Parse (List α) := do repeated p (← get).rest.length

/-- The bytes that a part reads. -/
def written {α : Type} (p : Parse α) : Parse Text := fun s =>
  (p s).map fun (_, s') => (s.rest.take (s.rest.length - s'.rest.length), s')

/-! ## Blanks and comments -/

def isBlank (b : UInt8) : Bool := b = 32 || b = 9
def isBreak (b : UInt8) : Bool := b = 10 || b = 13

/-- Whether a byte can stand in a comment or a literal string. -/
def isPlain (b : UInt8) : Bool := b = 9 || 32 ≤ b

def blanks : Parse Unit := do let _ ← span isBlank

def addLines (n : Nat) : Parse Unit := modify fun s => { s with line := s.line + n }

/-- Line breaks, one at least; each byte counts as a line. -/
def newline : Parse Unit := do
  let b ← byteOf isBreak
  let r ← span isBreak
  addLines (b :: r).length

/-- Blanks and line breaks, possibly none. -/
def blankLines : Parse Unit := do
  let t ← span fun b => isBlank b || isBreak b
  addLines (t.countP isBreak)

def comment : Parse Unit := do
  word "#"
  let _ ← span isPlain

/-! ## Numbers and dates -/

def digit : Parse UInt8 := byteOf Number.isDigit

/-- A digit, possibly after an underscore. -/
def laterDigit : Parse UInt8 := digit <|> do
  word "_"
  digit

def digitPair : Parse Unit := do
  let _ ← digit
  let _ ← digit

def sign : Parse Unit := maybe (byteOf fun b => b = 43 || b = 45)

/-- A decimal number without a leading zero. -/
def integer : Parse Unit := do
  sign
  (do
    let _ ← byteOf fun b => Number.isDigit b && b ≠ 48
    let _ ← laterDigit
    let _ ← many laterDigit) <|> (do let _ ← digit)

def digitRun : Parse Unit := do
  let _ ← digit
  let _ ← many laterDigit

def fraction : Parse Unit := do
  word "."
  digitRun

def exponent : Parse Unit := do
  let _ ← byteOf fun b => b = 69 || b = 101
  sign
  digitRun

/-- A number with a fraction, an exponent or both. -/
def float : Parse Unit := do
  integer
  (do
    fraction
    maybe exponent) <|> exponent

def partialTime : Parse Unit := do
  digitPair
  word ":"
  digitPair
  word ":"
  digitPair
  maybe do
    word "."
    let _ ← digit
    let _ ← many digit

def timeOffset : Parse Unit := word "Z" <|> do
  let _ ← byteOf fun b => b = 43 || b = 45
  digitPair
  word ":"
  digitPair

/-- A date, possibly with a time, or a time. -/
def datetime : Parse Unit :=
  (do
    digitPair
    digitPair
    word "-"
    digitPair
    word "-"
    digitPair
    maybe do
      word "T"
      partialTime
      maybe timeOffset) <|> partialTime

/-! ## Strings -/

def hexDigits (n : Nat) : Parse Unit :=
  (List.range n).forM fun _ => do let _ ← byteOf fun b => (Text.hexValue? b).isSome

/-- A character of a basic string, escaped or not. -/
def basicChar : Parse Unit :=
  (do let _ ← byteOf fun b => 32 ≤ b && b ≠ 34 && b ≠ 92) <|> do
    word "\\"
    (do let _ ← byteOf fun b => (Text.ofString "btnfr\"/\\").contains b) <|>
      (do
        word "u"
        hexDigits 4) <|> do
        word "U"
        hexDigits 8

def unescape (body : Text) : Parse Text :=
  match Text.unquote? ("\"" ++ body ++ "\"") with
  | some t => pure t
  | none => failure

def basicString : Parse Text := do
  word "\""
  let body ← written (many basicChar)
  word "\""
  unescape body

def escapeBreak (b : UInt8) : Text := if b = 10 then "\\n" else if b = 13 then "\\r" else [b]

/-- A piece of a basic string over several lines. A backslash at the end of a line skips to the next
text. -/
def longBasicPiece : Parse Text :=
  written basicChar <|> written newline <|> do
    word "\\"
    newline
    blankLines
    return []

/-- A basic string over several lines; line breaks at its start are left out. -/
def longBasicString : Parse Text := do
  word "\"\"\""
  let pieces ← many longBasicPiece
  word "\"\"\""
  unescape ((pieces.flatten.dropWhile isBreak).flatMap escapeBreak)

def literalString : Parse Text := do
  word "'"
  let t ← span fun b => isPlain b && b ≠ 39
  word "'"
  return t

/-- A character of a literal string over several lines, which ends at three quotes. -/
def longLiteralPiece : Parse Text := do
  if (Text.ofString "'''").isPrefixOf (← get).rest then failure
  written (byteOf isPlain) <|> written newline

/-- A literal string over several lines; line breaks at its start are left out. -/
def longLiteralString : Parse Text := do
  word "'''"
  let pieces ← many longLiteralPiece
  word "'''"
  return pieces.flatten.dropWhile isBreak

def string : Parse Text := longLiteralString <|> literalString <|> longBasicString <|> basicString

/-! ## Keys -/

def isBare (b : UInt8) : Bool :=
  Number.isDigit b || (65 ≤ b && b ≤ 90) || (97 ≤ b && b ≤ 122) || b = 45 || b = 95

def bareKey : Parse Text := do
  let b ← byteOf isBare
  return b :: (← span isBare)

/-- A key between quotes, with the escapes of a basic string. It may be empty. -/
def quotedKey : Parse Text := basicString

def key : Parse Text := bareKey <|> quotedKey

/-! ## Values -/

/-- A value that holds no others. -/
def scalar : Parse Value :=
  (Value.datetime <$> written datetime) <|> (Value.float <$> written float) <|>
    (Value.integer <$> written integer) <|> (Value.string <$> string) <|>
    (do
      word "true"
      return Value.boolean true) <|> do
      word "false"
      return Value.boolean false

/-- The items of an array, with a comma at the end if one likes. -/
def arrayItems (item : Parse Value) : Parse (List Value) := do
  let first ← item
  let rest ← many do
    blankLines
    maybe comment
    blankLines
    word ","
    blankLines
    maybe comment
    blankLines
    item
  blankLines
  maybe (word ",")
  blankLines
  maybe comment
  return first :: rest

def array (item : Parse Value) : Parse Value := do
  word "["
  blankLines
  let items ← arrayItems item <|> pure []
  blankLines
  word "]"
  return .array items

def pair (item : Parse Value) : Parse Entry := do
  let k ← key
  blanks
  word "="
  blanks
  let v ← item
  return .mk k v (← get).line

def inlineTable (item : Parse Value) : Parse Value := do
  word "\x7b"
  let start := (← get).line
  blanks
  let es ← many do
    let e ← pair item
    maybe do
      blanks
      word ","
      blanks
    return e
  blanks
  word "\x7d"
  return .table start es

/-- A value in which others are nested to a limited depth. -/
def valueWithin : Nat → Parse Value
  | 0 => failure
  | depth + 1 => scalar <|> array (valueWithin depth) <|> inlineTable (valueWithin depth)

/-- A value; its depth is at most the number of bytes that are left. -/
def value : Parse Value := do valueWithin (← get).rest.length

end Bytelift.Toml
