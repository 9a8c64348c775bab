import Bytelift.Yaml.Character

/-!
# Places in a YAML text

A cursor is a place in a text, with the numbers that the rules of indentation and of keys on one line are
about.

A cursor sees the text through a window. When it needs more characters than the window holds, the window
is moved: it then starts at the cursor, and whole parts are added to it until there are enough. So a part
that is refused does no harm as long as nobody needs a character of it.
-/

namespace Bytelift.Yaml

/-- The part of a text that is held ready. -/
structure Window where
  /-- How many characters from the cursor on are ready. The end of the text counts as one each time that
  the window is moved to look at it. -/
  ready : Nat := 0
  /-- The sizes of the parts behind the window; `none` stands for a part that is refused. -/
  parts : List (Option Nat) := []
  /-- Whether the window starts with a mark of the byte order. -/
  startsWithMark : Bool := false
  deriving Repr

/-- Adds parts until `n` characters are ready: how many there are then, and the parts that are left. -/
def Window.load (n : Nat) : (ready : Nat) → List (Option Nat) → Option (Nat × List (Option Nat))
  | ready, [] => some (if n ≤ ready then ready else ready + 1, [])
  | ready, p :: ps =>
    if n ≤ ready then some (ready, p :: ps)
    else
      match p with
      | some size => load n (ready + size) ps
      | none => none

/-- A place in a text. -/
structure Cursor where
  rest : List Char
  index : Nat := 0
  line : Nat := 0
  column : Nat := 0
  /-- How many lines were broken since the last character that is no blank. -/
  breaks : Nat := 0
  window : Window := {}
  deriving Repr

namespace Cursor

/-- Sees to it that the next `n` characters are ready; `none` if they cannot be read. -/
def need (c : Cursor) (n : Nat) : Option Cursor :=
  if n ≤ c.window.ready then some c
  else do
    let (ready, parts) ← Window.load n c.window.ready c.window.parts
    return { c with window := ⟨ready, parts, c.rest.head? = some orderMark⟩ }

/-! ## Moving on a line -/

/-- Passes over characters of the line. -/
def pass (c : Cursor) (n : Nat) : Cursor :=
  { c with
    rest := c.rest.drop n
    index := c.index + n
    column := c.column + n
    breaks := if (c.rest.take n).all isBlank then c.breaks else 0
    window := { c.window with ready := c.window.ready - n } }

/-- Passes over a character and needs the next `n`. -/
def step (c : Cursor) (n : Nat) : Option Cursor := (c.pass 1).need n

/-- Passes over characters one by one. -/
def steps : Nat → Cursor → Option Cursor
  | 0, c => some c
  | n + 1, c => do steps n (← c.step 1)

/-- Reads characters of a class from the text `ahead` of the cursor; `acc` holds them backwards. -/
def spanFrom (p : Char → Bool) : (ahead : List Char) → (acc : List Char) → Cursor →
    Option (List Char × Cursor)
  | [], acc, c => some (acc.reverse, c)
  | b :: r, acc, c => if p b then do spanFrom p r (b :: acc) (← c.step 1) else some (acc.reverse, c)

/-- The characters of a class that follow, and the place behind them. -/
def span (c : Cursor) (p : Char → Bool) : Option (List Char × Cursor) := do
  let c ← c.need 1
  spanFrom p c.rest [] c

/-- Passes over the characters of a class. -/
def skipWhile (c : Cursor) (p : Char → Bool) : Option Cursor := (c.span p).map (·.2)

/-- Passes over what is left of the line. -/
def skipLine (c : Cursor) : Option Cursor := c.skipWhile (!isBreak ·)

/-! ## Line breaks -/

/-- Whether the line ends here. -/
def atBreak (c : Cursor) : Bool := c.rest.head?.any isBreak

/-- Reads a line break. It stands for a line feed, unless it separates lines or paragraphs. -/
def readBreak (c : Cursor) : Option (Text × Cursor) := do
  let c ← c.need 2
  let behind (n : Nat) : Cursor :=
    { rest := c.rest.drop n
      index := c.index + n
      line := c.line + 1
      breaks := c.breaks + 1
      window := { c.window with ready := c.window.ready - n } }
  match c.rest with
  | '\r' :: '\n' :: _ => return ([10], behind 2)
  | b :: _ =>
    if b = '\u2028' || b = '\u2029' then return (bytesOf [b], behind 1)
    else if isBreak b then return ([10], behind 1)
    else return ([], c)
  | [] => return ([], c)

/-- Passes over a line break, if there is one. -/
def skipBreak (c : Cursor) : Option Cursor :=
  if c.atBreak then c.readBreak.map (·.2) else some c

/-- Whether a document starts or ends here. -/
def atDocumentMark (c : Cursor) : Bool :=
  c.column = 0 &&
    match c.rest with
    | '-' :: '-' :: '-' :: r | '.' :: '.' :: '.' :: r => startsBlank r
    | _ => false

/-! ## Comments -/

/-- How far one looks for a comment. -/
def commentReach : Nat := 512

/-- Looks for a comment behind blanks, and behind ASCII line breaks too if it may stand on a later line:
its distance, if there is one. `ahead` is the text at the distance `n`, and `left` says how much farther
one looks. Any other line break ends the search one character behind it. -/
def findComment (later : Bool) : (left n : Nat) → (ahead : List Char) → Cursor →
    Option (Option Nat × Cursor)
  | 0, _, _, c => some (none, c)
  | left + 1, n, ahead, c => do
    let c ← c.need (n + 1)
    match ahead with
    | [] => return (none, c)
    | b :: r =>
      if isBlank b || (later && isPlainBreak b) then findComment later left (n + 1) r c
      else if b = '#' then return (some n, c)
      else if later && isBreak b && left ≠ 0 then return (none, ← c.need (n + 2))
      else return (none, c)

/-- Passes over blanks and line breaks up to an index. -/
def passTo (index : Nat) : Nat → Cursor → Option Cursor
  | 0, c => some c
  | n + 1, c => do
    let c ← c.need 1
    if index ≤ c.index then return c
    passTo index n (← if c.atBreak then c.skipBreak else some (c.pass 1))

/-- Passes over a comment and the comments on the lines behind it, whatever blanks stand before them. -/
def skipComments : Nat → Cursor → Option Cursor
  | 0, c => some c
  | fuel + 1, c => do
    let c ← c.skipLine
    let ahead := if c.rest.head?.any isPlainBreak then c.rest.drop 1 else []
    let (distance?, c) ← findComment true (commentReach - 1) 1 ahead c
    match distance? with
    | some n => skipComments fuel (← passTo (c.index + n) n c)
    | none => return c

def skipLineComment (c : Cursor) : Option Cursor := do
  if c.breaks ≠ 0 then return c
  let (distance?, c) ← findComment false commentReach 0 c.rest c
  if distance?.isSome then c.skipLine else return c

end Cursor
end Bytelift.Yaml
