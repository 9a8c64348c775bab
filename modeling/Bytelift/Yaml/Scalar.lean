import Bytelift.Text.Quoted
import Bytelift.Yaml.Cursor

/-!
# YAML scalars

Plain, quoted and block scalars. A line break inside a plain or quoted scalar becomes a blank, and
`n + 1` line breaks become `n`; a break that separates lines or paragraphs is kept. A literal block keeps
its line breaks, a folded block joins lines that do not start with a blank.

Loops take fuel. One more than the number of characters that are left is always enough, because each
round passes over one at least. What has been read is held backwards while a loop runs.
-/

namespace Bytelift.Yaml

/-! ## Gaps between words -/

/-- Puts a text behind one that is held backwards. -/
def behind (t acc : Text) : Text := t.reverse ++ acc

/-- What stands between two words of a scalar: the blanks up to the first line break and the breaks
behind that one, both backwards, and the first line break itself. -/
structure Gap where
  blanks : Text := []
  isBroken : Bool := false
  first : Text := []
  later : Text := []

/-- The text that a gap stands for, backwards. -/
def Gap.reversed (g : Gap) : Text :=
  if !g.isBroken then g.blanks
  else if g.first = [10] then if g.later.isEmpty then [32] else g.later
  else g.later ++ g.first.reverse

/-- Reads blanks and line breaks. Behind a line break, no tab may stand before the column `indent`. -/
def readGap (indent : Nat) : Nat → Gap → Cursor → Option (Gap × Cursor)
  | 0, g, c => some (g, c)
  | fuel + 1, g, c =>
    if c.atBreak then do
      let (b, c) ← c.readBreak
      let g := if g.isBroken then { g with later := behind b g.later }
        else { g with isBroken := true, first := b }
      readGap indent fuel g (← c.need 1)
    else
      match c.rest with
      | [] => some (g, c)
      | b :: _ =>
        if !isBlank b then some (g, c)
        else if g.isBroken && b = '\t' && c.column < indent then none
        else do
          let g := if g.isBroken then g else { g with blanks := behind (bytesOf [b]) g.blanks }
          readGap indent fuel g (← c.step 1)

/-! ## Plain scalars -/

/-- Whether a character ends a plain scalar in a flow collection. -/
def endsInFlow (c : Char) : Bool :=
  c = ',' || c = '?' || c = '[' || c = ']' || c = '{' || c = '}'

/-- Reads the characters of a plain scalar up to a blank or its end from the text `ahead` of the cursor;
`acc` holds them backwards. -/
def plainWord (inFlow : Bool) : (ahead : List Char) → (acc : List Char) → Cursor →
    Option (List Char × Cursor)
  | [], acc, c => some (acc.reverse, c)
  | b :: r, acc, c =>
    if isBlank b || isBreak b || (b = ':' && startsBlank r) || (inFlow && endsInFlow b) then
      some (acc.reverse, c)
    else do plainWord inFlow r (b :: acc) (← c.step 2)

/-- Reads the words of a plain scalar; `g` is the gap before the next one. The flag says that the scalar
ends behind a line break. -/
def plainFrom (inFlow : Bool) (indent : Nat) :
    Nat → Cursor → (acc : Text) → Gap → Option (Text × Bool × Cursor)
  | 0, c, acc, g => some (acc.reverse, g.isBroken, c)
  | fuel + 1, c, acc, g => do
    let c ← c.need 4
    if c.atDocumentMark || c.rest.head? = some '#' then return (acc.reverse, g.isBroken, c)
    let (word, c) ← plainWord inFlow c.rest [] c
    if word.isEmpty then return (acc.reverse, g.isBroken, c)
    let acc := behind (bytesOf word) (g.reversed ++ acc)
    if c.rest.isEmpty || !startsBlank c.rest then return (acc.reverse, false, c)
    let (g, c) ← readGap indent fuel {} c
    if !inFlow && c.column < indent then return (acc.reverse, g.isBroken, c)
    plainFrom inFlow indent fuel c acc g

/-- Reads a plain scalar whose further lines are indented by at least `indent`. -/
def plain (inFlow : Bool) (indent fuel : Nat) (c : Cursor) : Option (Text × Bool × Cursor) :=
  plainFrom inFlow indent fuel c [] {}

def startsPlain (inFlow : Bool) : List Char → Bool
  | [] => false
  | c :: r =>
    if c = '-' then !(r.head?.any isBlank)
    else if c = '?' || c = ':' then !inFlow && !startsBlank r
    else !isBlank c && !isBreak c &&
      !",[]\x7b\x7d#&*!|>'\"%@`".toList.contains c

/-! ## Quoted scalars -/

/-- The letters of an escape with what they stand for. -/
def escapes : List (Char × Text) :=
  [('0', [0]), ('a', [7]), ('b', [8]), ('t', [9]), ('\t', [9]), ('n', [10]), ('v', [11]), ('f', [12]),
    ('r', [13]), ('e', [27]), (' ', [32]), ('"', [34]), ('\'', [39]), ('\\', [92]),
    ('N', Text.encodeRune 0x85), ('_', Text.encodeRune 0xA0), ('L', Text.encodeRune 0x2028),
    ('P', Text.encodeRune 0x2029)]

/-- How many digits follow the letter of an escape by number. -/
def escapeDigits? (letter : Char) : Option Nat :=
  if letter = 'x' then some 2 else if letter = 'u' then some 4 else if letter = 'U' then some 8 else none

/-- What an escape stands for and how many digits follow its letter. -/
def readEscape? (letter : Char) (r : List Char) : Option (Text × Nat) :=
  match escapes.lookup letter with
  | some t => some (t, 0)
  | none => do
    let n ← escapeDigits? letter
    let (t, _) ← Text.codeEscape? n (bytesOf (r.take n))
    return (t, n)

/-- Reads the characters of a quoted scalar up to a blank or its end. The flag says that the line break
behind them was escaped. -/
def quotedWord (quote : Char) : Nat → Cursor → (acc : Text) → Option (Text × Bool × Cursor)
  | 0, c, acc => some (acc, false, c)
  | fuel + 1, c, acc =>
    match c.rest with
    | [] => some (acc, false, c)
    | b :: r =>
      if isBlank b || isBreak b then some (acc, false, c)
      else if b = quote then
        if quote = '\'' && r.head? = some '\'' then do
          quotedWord quote fuel (← (c.pass 2).need 2) (39 :: acc)
        else some (acc, false, c)
      else if b = '\\' && quote = '"' then
        match r with
        | [] => none
        | letter :: r =>
          if isBreak letter then do
            let c ← c.need 3
            return (acc, true, ← (c.pass 1).skipBreak)
          else do
            let (e, n) ← readEscape? letter r
            let c ← (c.pass 2).need n
            quotedWord quote fuel (← (c.pass n).need 2) (behind e acc)
      else do quotedWord quote fuel (← c.step 2) (behind (bytesOf [b]) acc)

/-- Reads a quoted scalar behind its opening quote. No document starts or ends inside of it. -/
def quotedFrom (quote : Char) : Nat → Cursor → (acc : Text) → Option (Text × Cursor)
  | 0, _, _ => none
  | fuel + 1, c, acc => do
    let c ← c.need 4
    if c.atDocumentMark || c.rest.isEmpty then none
    let (acc, isBroken, c) ← quotedWord quote fuel (← c.need 2) acc
    let c ← c.need 1
    if c.rest.head? = some quote then return (acc.reverse, c.pass 1)
    let (g, c) ← readGap 0 fuel { isBroken } c
    quotedFrom quote fuel c (g.reversed ++ acc)

/-- Reads a quoted scalar. -/
def quoted (quote : Char) (fuel : Nat) (c : Cursor) : Option (Text × Cursor) :=
  quotedFrom quote fuel (c.pass 1) []

/-! ## Block scalars -/

/-- What happens to the line breaks at the end of a block. -/
inductive Chomping
  | clip
  | strip
  | keep
  deriving DecidableEq

/-- The header of a block scalar: how it ends, and its indentation if it is given. -/
structure BlockHeader where
  chomping : Chomping := .clip
  indent : Nat := 0

def chompingOf? (c : Char) : Option Chomping :=
  if c = '+' then some .keep else if c = '-' then some .strip else none

/-- The indicators behind `|` or `>`, in either order, and how many there are. The indentation is not
zero. -/
def blockHeader? : List Char → Option (BlockHeader × Nat)
  | [] => some ({}, 0)
  | c :: r =>
    let digit? (d : Char) : Option Nat := if d.isDigit then some (d.toNat - 48) else none
    let given (h : BlockHeader) (n : Nat) : Option (BlockHeader × Nat) :=
      if h.indent = 0 then none else some (h, n)
    match chompingOf? c, digit? c with
    | some k, _ =>
      match r.head?.bind digit? with
      | some d => given ⟨k, d⟩ 2
      | none => some (⟨k, 0⟩, 1)
    | none, some d =>
      match r.head?.bind chompingOf? with
      | some k => given ⟨k, d⟩ 2
      | none => given ⟨.clip, d⟩ 1
    | none, none => some ({}, 0)

/-- Passes over the spaces before a column, or over all of them if the column is zero. -/
def skipIndent (column : Nat) : (ahead : List Char) → Cursor → Option Cursor
  | ' ' :: r, c =>
    if column = 0 || c.column < column then do skipIndent column r (← c.step 1) else some c
  | _, c => some c

/-- Passes over empty lines and the indentation of the next one: the line breaks backwards, the deepest
indentation, and the place behind it. An indentation of zero is not known yet. `none` if a tab stands
where indentation is expected. -/
def readEmptyLines (indent : Nat) : Nat → (breaks : Text) → (deepest : Nat) → Cursor →
    Option (Text × Nat × Cursor)
  | 0, breaks, deepest, c => some (breaks, deepest, c)
  | fuel + 1, breaks, deepest, c => do
    let c ← c.need 1
    let c ← skipIndent indent c.rest c
    let deepest := max deepest c.column
    if c.rest.head? = some '\t' && (indent = 0 || c.column < indent) then none
    if !c.atBreak then return (breaks, deepest, c)
    let (b, c) ← c.readBreak
    readEmptyLines indent fuel (behind b breaks) deepest c

/-- The state of reading a block: its text so far and the breaks of the empty lines behind it, both
backwards, the line break of its last line, and whether that line started with a blank. -/
structure BlockState where
  acc : Text := []
  pending : Text := []
  breaks : Text := []
  wasBlank : Bool := false

def blockLines (literal : Bool) (indent : Nat) : Nat → BlockState → Cursor →
    Option (BlockState × Cursor)
  | 0, s, c => some (s, c)
  | fuel + 1, s, c =>
    if c.column ≠ indent || c.rest.isEmpty then some (s, c)
    else do
      let blank := c.rest.head?.any isBlank
      let joined : Text :=
        if !literal && !s.wasBlank && !blank && s.pending = [10] then
          if s.breaks.isEmpty then [32] else []
        else s.pending
      let (line, c) ← c.span (!isBreak ·)
      let acc := behind (bytesOf line) (s.breaks ++ behind joined s.acc)
      let (pending, c) ← c.readBreak
      let (breaks, _, c) ← readEmptyLines indent fuel [] 0 c
      blockLines literal indent fuel ⟨acc, pending, breaks, blank⟩ c

/-- Reads a block scalar at its `|` or `>`; `parent` is the indentation of the collection around it,
negative at the top. -/
def block (parent : Int) (fuel : Nat) (c : Cursor) : Option (Text × Cursor) := do
  let literal := c.rest.head? = some '|'
  let (h, n) ← blockHeader? (c.rest.drop 1)
  let c ← (← c.steps (n + 1)).skipWhile isBlank
  let c ← if c.rest.head? = some '#' then c.skipLine else some c
  if !(c.rest.isEmpty || c.atBreak) then none
  let c ← c.skipBreak
  let given := if h.indent = 0 then 0 else parent.toNat + h.indent
  let (breaks, deepest, c) ← readEmptyLines given fuel [] 0 c
  let indent := if given ≠ 0 then given else max (max deepest (parent + 1).toNat) 1
  let (s, c) ← blockLines literal indent fuel { breaks } c
  let tail : Text := match h.chomping with
    | .strip => []
    | .clip => s.pending
    | .keep => s.pending ++ s.breaks.reverse
  return (s.acc.reverse ++ tail, c)

end Bytelift.Yaml
