import Bytelift.Yaml.Token

/-!
# Streams of YAML tokens

Tokens are read from a text as they are asked for. Outside of flow collections the column of a token says
which block collections it opens and closes. A scalar or a collection that stands where a key may start
is a candidate for one until its line ends; the colon behind it makes it a key, and the token that says
so is put in front of it. So the stream waits with a token until it is no candidate any more, and two
tokens are always read ahead of the one that is asked for.

There is one candidate for each flow collection that is open, and one outside of them. The stream does not
wait for the opening bracket of a collection in which nothing was a candidate. Such a collection may be
handed out while it still can be followed by a colon; the token of the key then comes last.
-/

namespace Bytelift.Yaml

/-- A token that may turn out to be a key, by its number in the stream and its place in the text. A key
is required where a block mapping expects one. -/
structure Candidate where
  isPossible : Bool := false
  isRequired : Bool := false
  /-- How many flow collections are around it. -/
  depth : Nat := 0
  number : Nat := 0
  index : Nat := 0
  line : Nat := 0
  column : Nat := 0
  deriving DecidableEq, Repr

/-- The longest key, in characters. -/
def keyReach : Nat := 1024

/-- Whether a candidate can still be followed by a colon: one is on its line and not too far away. -/
def Candidate.isLive (k : Candidate) (c : Cursor) : Bool :=
  k.isPossible && c.line ≤ k.line && c.index ≤ k.index + keyReach

/-- The deepest nesting of collections. -/
def deepest : Nat := 10000

structure Stream where
  cursor : Cursor
  /-- Enough fuel for any loop over the text: one more than its characters. -/
  fuel : Nat
  /-- The tokens that are read and not yet taken, and the number of those that were taken. -/
  queue : List Token := []
  taken : Nat := 0
  /-- The column of the innermost block collection, and those of the ones around it. -/
  indent : Int := -1
  indents : List Int := []
  /-- Whether a key may start here. -/
  keyAllowed : Bool := true
  /-- The candidate of the innermost flow collection, and those of the collections around it. -/
  candidate : Candidate := {}
  outer : List Candidate := []
  /-- The numbers of the tokens that the stream waits for, each with the depth of its candidate. -/
  awaited : List (Nat × Nat) := []

namespace Stream

def ofText (t : Text) : Stream :=
  let ⟨cs, parts⟩ := contents t
  { cursor := { rest := cs, window := { parts } }, fuel := cs.length + 1 }

def inFlow (s : Stream) : Bool := !s.outer.isEmpty

def push (s : Stream) (t : Token) : Stream := { s with queue := s.queue ++ [t] }

/-- Puts a token into the queue at a position. A negative one belongs to a token that was handed out; the
new token then comes last. -/
def insert (s : Stream) (position : Int) (t : Token) : Stream :=
  if position < 0 then s.push t
  else { s with queue := s.queue.take position.toNat ++ t :: s.queue.drop position.toNat }

/-- Reads a token that is `n` characters long. -/
def pushMark (s : Stream) (n : Nat) (t : Token) : Stream :=
  { s.push t with cursor := s.cursor.pass n }

/-! ## Indentation -/

/-- The block collections that end before a column: their number, and what is around them. -/
def dedent (column : Int) : Int → List Int → Nat × Int × List Int
  | i, [] => (0, i, [])
  | i, p :: ps =>
    if column < i then
      let (n, i, ps) := dedent column p ps
      (n + 1, i, ps)
    else (0, i, p :: ps)

/-- Closes the block collections that end before a column. -/
def unroll (s : Stream) (column : Int) : Stream :=
  if s.inFlow then s
  else
    let (n, indent, indents) := dedent column s.indent s.indents
    { s with indent, indents, queue := s.queue ++ List.replicate n .blockEnd }

/-- Opens a block collection at a column, unless it is open already. Its token is put at `position` of
the queue. -/
def roll (s : Stream) (column : Nat) (position : Int) (t : Token) : Option Stream :=
  if s.inFlow || column ≤ s.indent then some s
  else if deepest ≤ s.indents.length then none
  else some { s.insert position t with indent := column, indents := s.indent :: s.indents }

/-! ## Candidates for keys -/

/-- Does not wait for a token any more. -/
def release (s : Stream) (number : Nat) : Stream :=
  { s with awaited := s.awaited.eraseP (·.1 = number) }

/-- Waits for a token that is made the candidate. -/
def await (s : Stream) (number : Nat) : Stream :=
  { s with awaited := (number, s.candidate.depth) :: s.awaited }

def candidateAt? (s : Stream) (depth : Nat) : Option Candidate :=
  if depth ≤ s.candidate.depth then (s.candidate :: s.outer)[s.candidate.depth - depth]? else none

/-- Gives up the candidate; `none` if it had to be a key. -/
def dropCandidate (s : Stream) : Option Stream :=
  if !s.candidate.isPossible then some s
  else if s.candidate.isRequired then none
  else some { s.release s.candidate.number with candidate := { s.candidate with isPossible := false } }

/-- Makes the next token a candidate if a key may start here. -/
def saveCandidate (s : Stream) : Option Stream :=
  if !s.keyAllowed then some s
  else do
    let c := s.cursor
    let s ← s.dropCandidate
    let number := s.taken + s.queue.length
    return { s.await number with candidate := {
      isPossible := true
      isRequired := !s.inFlow && s.indent = c.column
      depth := s.candidate.depth
      number
      index := c.index
      line := c.line
      column := c.column } }

/-! ## Tokens -/

/-- Passes over blanks, comments and line breaks. Tabs do not count as blanks where a key may start
outside of flow collections. Behind a line break, a key may start. While the window starts with a mark of
the byte order, the first character of a line counts as such a mark and is passed over. -/
def skipGap : Nat → Stream → Option Stream
  | 0, s => some s
  | fuel + 1, s => do
    let c ← s.cursor.need 1
    let c := if c.column = 0 && c.window.startsWithMark then c.pass 1 else c
    let tabs := s.inFlow || !s.keyAllowed
    let c ← c.skipWhile fun b => b = ' ' || (tabs && b = '\t')
    let c ← if c.rest.head? = some '#' then c.skipComments s.fuel else some c
    if !c.atBreak then return { s with cursor := c }
    skipGap fuel { s with cursor := ← c.skipBreak, keyAllowed := s.keyAllowed || !s.inFlow }

/-- Reads the end of the text. -/
def fetchEnd (s : Stream) : Option Stream := do
  let c := s.cursor
  let c := if c.column = 0 then c else { c with column := 0, line := c.line + 1 }
  let s ← ({ s with cursor := c }.unroll (-1)).dropCandidate
  return { s.push .streamEnd with keyAllowed := false }

def fetchDirective (s : Stream) : Option Stream := do
  let s ← (s.unroll (-1)).dropCandidate
  let (t, c) ← readDirective s.cursor
  return { s.push t with cursor := c, keyAllowed := false }

def fetchDocumentMark (s : Stream) (t : Token) : Option Stream := do
  let s ← (s.unroll (-1)).dropCandidate
  return { s.pushMark 3 t with keyAllowed := false }

/-- Reads an opening bracket. What is inside has no candidate yet; it has the number of the bracket. -/
def fetchOpening (s : Stream) (t : Token) : Option Stream := do
  let s ← s.saveCandidate
  if deepest ≤ s.candidate.depth then none
  let inner : Candidate := { depth := s.candidate.depth + 1, number := s.taken + s.queue.length }
  return { s.pushMark 1 t with
    keyAllowed := true, outer := s.candidate :: s.outer, candidate := inner }

/-- Reads a closing bracket. -/
def fetchClosing (s : Stream) (t : Token) : Option Stream := do
  let s ← s.dropCandidate
  let s := match s.outer with
    | k :: ks => { s.release s.candidate.number with candidate := k, outer := ks }
    | [] => s
  return { s.pushMark 1 t with keyAllowed := false }

def fetchComma (s : Stream) : Option Stream := do
  let s ← s.dropCandidate
  return { s.pushMark 1 .comma with keyAllowed := true }

/-- Opens a block collection for a mark at the cursor, which stands where a key may start. -/
def openBlock (s : Stream) (t : Token) : Option Stream :=
  if s.inFlow then some s
  else if s.keyAllowed then s.roll s.cursor.column s.queue.length t
  else none

/-- Reads the mark of an item of a block sequence. -/
def fetchItem (s : Stream) : Option Stream := do
  let s ← (← s.openBlock .sequenceStart).dropCandidate
  return { s.pushMark 1 .item with keyAllowed := true }

/-- Reads the mark of a key. -/
def fetchKey (s : Stream) : Option Stream := do
  let s ← (← s.openBlock .mappingStart).dropCandidate
  return { s.pushMark 1 .key with keyAllowed := !s.inFlow }

/-- Reads the colon before a value. A candidate that is still possible becomes a key. -/
def fetchValue (s : Stream) : Option Stream := do
  let k := s.candidate
  if k.isLive s.cursor then
    let position : Int := k.number - s.taken
    let s ← ((s.insert position .key).release k.number).roll k.column position .mappingStart
    return { s.pushMark 1 .value with keyAllowed := false, candidate := { k with isPossible := false } }
  else
    if k.isPossible && k.isRequired then none
    let s ← s.openBlock .mappingStart
    return { s.pushMark 1 .value with
      keyAllowed := !s.inFlow, candidate := { k with isPossible := false } }

def fetchNode (s : Stream) (read : Cursor → Option (Token × Cursor)) : Option Stream := do
  let s ← s.saveCandidate
  let (t, c) ← read s.cursor
  return { s.push t with cursor := c, keyAllowed := false }

def fetchPlain (s : Stream) : Option Stream := do
  let s ← s.saveCandidate
  let (t, isBroken, c) ← plain s.inFlow (s.indent + 1).toNat s.fuel s.cursor
  return { s.push (.scalar true t) with cursor := c, keyAllowed := isBroken }

def fetchBlockScalar (s : Stream) : Option Stream := do
  let s ← s.dropCandidate
  let (t, c) ← block s.indent s.fuel s.cursor
  return { s.push (.scalar false t) with cursor := c, keyAllowed := true }

/-- Reads a token that starts with a character. -/
def fetchAt (s : Stream) (b : Char) (r : List Char) : Option Stream :=
  let named (make : Text → Token) (c : Cursor) : Option (Token × Cursor) :=
    (readName c).map fun (name, c) => (make name, c)
  let quote (c : Cursor) : Option (Token × Cursor) :=
    (quoted b s.fuel c).map fun (t, c) => (.scalar false t, c)
  if b = '[' then s.fetchOpening .flowSequenceStart
  else if b = '{' then s.fetchOpening .flowMappingStart
  else if b = ']' then s.fetchClosing .flowSequenceEnd
  else if b = '}' then s.fetchClosing .flowMappingEnd
  else if b = ',' then s.fetchComma
  else if b = '-' && startsBlank r then s.fetchItem
  else if b = '?' && (s.inFlow || startsBlank r) then s.fetchKey
  else if b = ':' && (s.inFlow || startsBlank r) then s.fetchValue
  else if b = '*' then s.fetchNode (named .reference)
  else if b = '&' then s.fetchNode (named .anchor)
  else if b = '!' then s.fetchNode fun c => (readTag c).map fun (h, t, c) => (.tag h t, c)
  else if (b = '|' || b = '>') && !s.inFlow then s.fetchBlockScalar
  else if b = '\'' || b = '"' then s.fetchNode quote
  else if startsPlain s.inFlow (b :: r) then s.fetchPlain
  else none

/-- Reads the next token, with a comment on its line. A comment behind the mark of an item belongs to
what follows. -/
def fetch (s : Stream) : Option Stream := do
  let s ← skipGap s.fuel { s with cursor := ← s.cursor.need 1 }
  let s := s.unroll s.cursor.column
  let s := { s with cursor := ← s.cursor.need 4 }
  match s.cursor.rest with
  | [] => s.fetchEnd
  | b :: r =>
    if s.cursor.column = 0 && b = '%' then s.fetchDirective
    else if s.cursor.atDocumentMark then
      s.fetchDocumentMark (if b = '-' then .documentStart else .documentEnd)
    else do
      let s ← s.fetchAt b r
      if s.queue.getLast? = some .item then return s
      return { s with cursor := ← s.cursor.skipLineComment }

/-! ## Taking tokens -/

/-- Gives up a candidate that cannot be followed by a colon any more. -/
def expire (s : Stream) (depth : Nat) : Stream :=
  let expired (k : Candidate) : Candidate := { k with isPossible := false }
  if depth = s.candidate.depth then { s with candidate := expired s.candidate }
  else { s with outer := s.outer.modify (s.candidate.depth - 1 - depth) expired }

/-- Reads tokens until the first one can be handed out. The stream waits for it as long as the candidate
at its depth, which may be a later one by now, can become a key. -/
def fill : Nat → Stream → Option Stream
  | 0, s => some s
  | fuel + 1, s => do
    if s.queue.length ≤ 2 then fill fuel (← s.fetch)
    else
      match s.awaited.lookup s.taken with
      | none => some s
      | some depth =>
        match s.candidateAt? depth with
        | none => some s
        | some k =>
          if k.isLive s.cursor then fill fuel (← s.fetch)
          else if k.isPossible && k.isRequired then none
          else some ((s.expire depth).release s.taken)

def peek (s : Stream) : Option (Token × Stream) := do
  let s ← fill (s.fuel + 3) s
  return (← s.queue.head?, s)

def next (s : Stream) : Stream := { s with queue := s.queue.tail, taken := s.taken + 1 }

end Stream
end Bytelift.Yaml
