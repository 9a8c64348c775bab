import Bytelift.Yaml.Scalar

/-!
# YAML tokens

The marks and scalars that a text is made of, and those of them that are read without a look at what
stands around them: anchors, references, tags and directives.
-/

namespace Bytelift.Yaml

/-- A token. The start and the end of a block collection have tokens although nothing is written for
them, and so has a key that is only recognised by the colon behind it. -/
inductive Token
  | streamEnd
  /-- The directive that names the version of the language. -/
  | version (major minor : Nat)
  /-- The directive that says what a handle of tags stands for. -/
  | handle (name expansion : Text)
  | documentStart
  | documentEnd
  | sequenceStart
  | mappingStart
  | blockEnd
  | flowSequenceStart
  | flowSequenceEnd
  | flowMappingStart
  | flowMappingEnd
  | item
  | comma
  | key
  | value
  | anchor (name : Text)
  /-- A node that was given a name before. -/
  | reference (name : Text)
  | tag (handle suffix : Text)
  | scalar (isPlain : Bool) (text : Text)
  deriving DecidableEq, Repr

/-! ## Anchors -/

/-- Reads the name behind the mark of an anchor or of a reference. -/
def readName (c : Cursor) : Option (Text × Cursor) := do
  let (name, c) ← (c.pass 1).span isNameChar
  let ends := startsBlank c.rest || c.rest.head?.any fun b => "?:,]\x7d%@`".toList.contains b
  if name.isEmpty || !ends then none else return (bytesOf name, c)

/-! ## Tags -/

/-- Whether a character can stand in a tag as it is. -/
def isTagChar (c : Char) : Bool := isNameChar c || ";/?:@&=+$.!~*'()[]".toList.contains c

/-- The byte of an escape in a tag. -/
def tagByte? : List Char → Option UInt8
  | '%' :: a :: b :: _ => do
    let (x, y) := (← Text.hexValue? (Text.byte a), ← Text.hexValue? (Text.byte b))
    if a.toNat < 128 && b.toNat < 128 then some (x * 16 + y).toUInt8 else none
  | _ => none

/-- Reads the characters of a tag; the bytes of its escapes have to be UTF-8. -/
def readTagChars : Nat → Cursor → (acc : Text) → Option (Text × Cursor)
  | 0, c, acc => some (acc.reverse, c)
  | fuel + 1, c, acc =>
    match c.rest with
    | [] => some (acc.reverse, c)
    | b :: _ =>
      if b = '%' then do
        let c ← c.need 3
        let byte ← tagByte? c.rest
        readTagChars fuel (← (c.pass 3).need 1) (byte :: acc)
      else if isTagChar b then do readTagChars fuel (← c.step 1) (behind (bytesOf [b]) acc)
      else some (acc.reverse, c)

/-- The rest of a tag, which may not be empty unless something stands before it. -/
def readSuffix (before : Text) (c : Cursor) : Option (Text × Cursor) := do
  let c ← c.need 1
  let (t, c) ← readTagChars c.rest.length c []
  if !Text.isUtf8 t || (before.isEmpty && t.isEmpty) then none else some (t, c)

/-- Reads a handle: a mark, a name, and a second mark if it is there. -/
def readHandle (c : Cursor) : Option (List Char × Cursor) := do
  let (name, c) ← (c.pass 1).span isNameChar
  if c.rest.head? = some '!' then return ('!' :: name ++ ['!'], c.pass 1) else return ('!' :: name, c)

/-- Reads a tag: its handle and its suffix. A tag without a handle has an empty one. -/
def readTag (c : Cursor) : Option (Text × Text × Cursor) := do
  let c ← c.need 2
  let (handle, suffix, c) ←
    if c.rest.drop 1 |>.head?.any (· = '<') then do
      let (suffix, c) ← readSuffix [] (c.pass 2)
      if c.rest.head? = some '>' then some ([], suffix, c.pass 1) else none
    else do
      let (handle, c) ← readHandle c
      if 1 < handle.length && handle.getLast? = some '!' then
        let (suffix, c) ← readSuffix [] c
        some (bytesOf handle, suffix, c)
      else
        let (rest, c) ← readSuffix (bytesOf handle) c
        let suffix := bytesOf (handle.drop 1) ++ rest
        some (if suffix.isEmpty then ([], Text.ofString "!", c) else (Text.ofString "!", suffix, c))
  let c ← c.need 1
  if startsBlank c.rest then return (handle, suffix, c) else none

/-! ## Directives -/

def readShortNumber (c : Cursor) : Option (Nat × Cursor) := do
  let (ds, c) ← c.span Char.isDigit
  if ds.isEmpty || 2 < ds.length then none
  return (ds.foldl (fun n d => n * 10 + (d.toNat - 48)) 0, c)

def readDirectiveBody (name : Text) (c : Cursor) : Option (Token × Cursor) := do
  let c ← c.skipWhile isBlank
  if name = Text.ofString "YAML" then do
    let (major, c) ← readShortNumber c
    if c.rest.head? ≠ some '.' then none
    let (minor, c) ← readShortNumber (c.pass 1)
    return (.version major minor, c)
  else if name = Text.ofString "TAG" then do
    if c.rest.head? ≠ some '!' then none
    let (handle, c) ← readHandle c
    let c ← c.need 1
    if handle.getLast? ≠ some '!' || !c.rest.head?.any isBlank then none
    let (expansion, c) ← readSuffix [] (← c.skipWhile isBlank)
    let c ← c.need 1
    if !startsBlank c.rest then none
    return (.handle (bytesOf handle) expansion, c)
  else none

def readDirective (c : Cursor) : Option (Token × Cursor) := do
  let (name, c) ← (c.pass 1).span isNameChar
  if name.isEmpty || !startsBlank c.rest then none
  let (t, c) ← readDirectiveBody (bytesOf name) c
  let c ← c.skipWhile isBlank
  let c ← if c.rest.head? = some '#' then c.skipLine else some c
  if c.rest.isEmpty || c.atBreak then return (t, ← c.skipBreak) else none

end Bytelift.Yaml
