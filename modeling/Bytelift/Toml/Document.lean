import Bytelift.Assoc
import Bytelift.Toml.Value

/-!
# TOML documents

A document is a sequence of headers and entries. An entry goes into the table of the last header before
it. A key or a header that is given twice is refused, as is a header below a key that holds a value; a
table that came into being as a part of a longer header, or as the value of a key, may be taken up again
by a header or a key of its own later.

Tables in an array make a list of tables under the key of the array, and so do tables inside of them;
the other items of such an array are of no account.
-/

namespace Bytelift.Toml

/-- A step of a document. -/
inductive Statement
  /-- A header; a repeated one starts the next table of a list of tables. -/
  | header (repeated : Bool) (path : List Text) (line : Nat)
  | entry (e : Entry)

/-! ## Reading -/

/-- A dotted key of a header. -/
def headerPath : Parse (List Text) := do
  let first ← key
  let rest ← many do
    blanks
    word "."
    blanks
    key
  return first :: rest

def headerBetween (isRepeated : Bool) (left right : Text) : Parse Statement := do
  word left
  blanks
  let path ← headerPath
  blanks
  word right
  return .header isRepeated path (← get).line

def header : Parse Statement := headerBetween false "[" "]" <|> headerBetween true "[[" "]]"

/-- An entry with what may follow it on its line. -/
def entryLine : Parse Statement := do
  let e ← pair value
  blanks
  maybe comment
  return .entry e

/-- What stands between two line breaks, or a header with the entries that follow it at once. -/
def expression : Parse (List Statement) := do
  blanks
  (do
    let h ← header
    blanks
    maybe comment
    let es ← many do
      blankLines
      entryLine
    return h :: es) <|> (do return [← entryLine]) <|> do
      maybe comment
      return []

/-- All statements of a document, which has to be read to its end. -/
def statements : Parse (List Statement) := do
  let first ← expression
  let rest ← many do
    newline
    expression
  maybe newline
  if (← get).rest.isEmpty then return first ++ rest.flatten else failure

/-! ## Tables -/

/-- What a key stands for, with the line that says so. -/
inductive Node
  | value (v : Value) (line : Nat)
  /-- A table; it is open if it has no header of its own. -/
  | table (fields : List (Text × Node)) (line : Nat) (isOpen : Bool)
  /-- A list of tables, the last of which is being filled. -/
  | tables (earlier : List (List (Text × Node))) (last : List (Text × Node)) (line : Nat)

/-- The line that an unknown key is reported with. -/
def Node.line : Node → Nat
  | .value _ n | .table _ n _ | .tables _ _ n => n

/-- The fields of a table in the order in which they first came up. -/
abbrev Fields := List (Text × Node)

/-- Changes the fields of the table at a path; tables that are missing on the way are made. -/
def Fields.modifyAt (line : Nat) (f : Fields → Option Fields) : List Text → Fields → Option Fields
  | [], fields => f fields
  | k :: path, fields =>
    match fields.lookup k with
    | none => do
      let inner ← Fields.modifyAt line f path []
      return assign k (.table inner line true) fields
    | some (.table inner n isOpen) => do
      let inner ← Fields.modifyAt line f path inner
      return assign k (.table inner n isOpen) fields
    | some (.tables earlier last n) => do
      let last ← Fields.modifyAt line f path last
      return assign k (.tables earlier last n) fields
    | some (.value _ _) => none

/-- Adds a table under a new key, or takes up an open one again. The first argument says what the table
holds, given what it held before. -/
def Fields.addTable (fill : Fields → Option Fields) (k : Text) (line : Nat) (isOpen : Bool)
    (fields : Fields) : Option Fields :=
  match fields.lookup k with
  | none => do return assign k (.table (← fill []) line isOpen) fields
  | some (.table inner _ true) => do return assign k (.table (← fill inner) line isOpen) fields
  | some _ => none

def Fields.addToTables (next : Fields) (k : Text) (line : Nat) (fields : Fields) : Option Fields :=
  match fields.lookup k with
  | none => some (assign k (.tables [] next line) fields)
  | some (.tables earlier last n) => some (assign k (.tables (earlier ++ [last]) next n) fields)
  | some _ => none

def Fields.addValue (k : Text) (v : Value) (line : Nat) (fields : Fields) : Option Fields :=
  match fields.lookup k with
  | none => some (assign k (.value v line) fields)
  | some _ => none

mutual

/-- Whether a value is a table or an array with one in it. -/
def Value.holdsTable : Value → Bool
  | .table _ _ => true
  | .array items => Value.anyHoldsTable items
  | _ => false

def Value.anyHoldsTable : List Value → Bool
  | [] => false
  | v :: vs => v.holdsTable || Value.anyHoldsTable vs

end

mutual

/-- Adds an entry to the fields of a table, which may stand in an array. -/
def Fields.addEntry (inArray : Bool) : Entry → Fields → Option Fields
  | .mk k v line, fields =>
    if v.holdsTable then Fields.addTablesOf inArray k v fields else fields.addValue k v line

def Fields.addEntries (inArray : Bool) : List Entry → Fields → Option Fields
  | [], fields => some fields
  | e :: es, fields => do Fields.addEntries inArray es (← Fields.addEntry inArray e fields)

def Fields.addTablesOf (inArray : Bool) (k : Text) : Value → Fields → Option Fields
  | .table line entries, fields =>
    if inArray then do
      let next ← Fields.addEntries true entries []
      Fields.addToTables next k line fields
    else fields.addTable (Fields.addEntries false entries) k line true
  | .array items, fields => Fields.addTablesOfAll k items fields
  | _, fields => some fields

/-- Adds the tables of the items of an array under a key. -/
def Fields.addTablesOfAll (k : Text) : List Value → Fields → Option Fields
  | [], fields => some fields
  | v :: vs, fields => do Fields.addTablesOfAll k vs (← Fields.addTablesOf true k v fields)

end

/-- The fields so far and the path of the table that is being filled. -/
structure Draft where
  fields : Fields := []
  current : List Text := []

/-- Takes a statement into account; `none` if it is in conflict with an earlier one. -/
def Draft.add (d : Draft) : Statement → Option Draft
  | .header isRepeated path line => do
    let k ← path.getLast?
    let f := if isRepeated then Fields.addToTables [] k line else Fields.addTable some k line false
    return ⟨← Fields.modifyAt line f path.dropLast d.fields, path⟩
  | .entry e => do
    return { d with fields := ← Fields.modifyAt 0 (Fields.addEntry false e) d.current d.fields }

/-- The fields of a document, or `none` if it is none. -/
def parse? (t : Text) : Option Fields := do
  let (steps, _) ← statements.run { rest := t }
  let d ← steps.foldlM Draft.add {}
  return d.fields

end Bytelift.Toml
