import Bytelift.Assoc
import Bytelift.Yaml.Node
import Bytelift.Yaml.Stream

/-!
# YAML documents

The node that the first document of a text stands for. What follows the document is not read, apart from
the tokens that the stream reads ahead.

Every function takes fuel, which the length of the text bounds: each step takes a token or goes down to a
part that starts behind one.
-/

namespace Bytelift.Yaml

/-- The tokens that are left, the nodes that have a name, and the handles of tags. A node has its name
from its start on, but can only be referred to when it is complete. -/
structure Draft where
  stream : Stream
  anchors : List (Text × Option Node) := []
  handles : List (Text × Text) := []

/-- A reader of a part of a document. -/
abbrev Read := StateT Draft Option

namespace Read

def peek : Read Token := fun d => do
  let (t, s) ← d.stream.peek
  return (t, { d with stream := s })

/-- Passes over the next token. -/
def next : Read Unit := modify fun d => { d with stream := d.stream.next }

/-! ## Properties of nodes -/

/-- What is written in front of a node. -/
structure Properties where
  anchor : Option Text := none
  tag : Option Text := none

/-- The text before the name of a tag that the language itself defines. -/
def standardTags : Text := "tag:yaml.org,2002:"

/-- A tag with its handle replaced; `none` if the handle is not known. -/
def expandTag (handles : List (Text × Text)) (handle suffix : Text) : Option Text :=
  if handle.isEmpty then some suffix
  else do
    let standard : List (Text × Text) := [("!", "!"), ("!!", standardTags)]
    let expansion ← (handles ++ standard).lookup handle
    return expansion ++ suffix

/-- The tag of a node; standard tags are shortened, and a lone mark is none. -/
def shortTag (t : Text) : Option Text :=
  if t = Text.ofString "!" then none
  else if standardTags.isPrefixOf t then some ("!!" ++ t.drop standardTags.length)
  else some t

/-- Reads an anchor, if there is one. -/
def anchor? : Read (Option Text) := do
  match ← peek with
  | .anchor name => do
    next
    return some name
  | _ => return none

/-- Reads a tag, if there is one. -/
def tag? : Read (Option Text) := do
  match ← peek with
  | .tag handle suffix => do
    next
    match expandTag (← get).handles handle suffix with
    | some t => return some t
    | none => failure
  | _ => return none

/-- Reads an anchor and a tag, in either order. -/
def properties : Read Properties := do
  match ← anchor? with
  | some name => return ⟨some name, ← tag?⟩
  | none =>
    let tag ← tag?
    if tag.isNone then return {} else return ⟨← anchor?, tag⟩

/-- Gives a node its name. -/
def named (p : Properties) (node : Read Node) : Read Node :=
  match p.anchor with
  | none => node
  | some name => do
    modify fun d => { d with anchors := (name, none) :: d.anchors }
    let n ← node
    let complete (a : Text × Option Node) : Bool := a.1 = name && a.2.isNone
    modify fun d =>
      let before := d.anchors.takeWhile (!complete ·)
      { d with anchors := before ++ (name, some n) :: d.anchors.drop (before.length + 1) }
    return n

/-- The node that a name refers to; a node cannot contain itself. -/
def referred (name : Text) : Read Node := do
  match (← get).anchors.lookup name with
  | some (some n) => return .shared name n
  | _ => failure

/-! ## Nodes -/

/-- Whether a token ends a key or value of a block mapping before it starts. -/
def endsBlockPart : Token → Bool
  | .key | .value | .blockEnd => true
  | _ => false

/-- Whether a token ends a key of a flow collection with this closing bracket before it starts. -/
def endsFlowKey (closing : Token) (t : Token) : Bool := t = .value || t = .comma || t = closing

/-- Whether a token ends a value of a flow collection with this closing bracket before it starts. -/
def endsFlowValue (closing : Token) (t : Token) : Bool := t = .comma || t = closing

/-- A part that is empty if the next token ends it at once. -/
def unlessEnded (ends : Token → Bool) (node : Read Node) : Read Node := do
  if ends (← peek) then return .empty else node

/-- The value of a key, if its mark is there; otherwise it is empty. -/
def valueAfterMark (ends : Token → Bool) (node : Read Node) : Read Node := do
  if (← peek) = .value then
    next
    unlessEnded ends node
  else return .empty

mutual

/-- Reads a node. Block collections may not stand in flow collections; a block sequence as the key or
value of a mapping need not be indented. -/
def node (isBlock unindented : Bool) : Nat → Read Node
  | 0 => failure
  | fuel + 1 => do
    match ← peek with
    | .reference name =>
      next
      referred name
    | _ =>
      let p ← properties
      let t ← peek
      named p do
        match t with
        | .scalar isPlain text =>
          next
          return .scalar (p.tag.bind shortTag) isPlain text
        | .item => if unindented then return .seq (← unindentedItems fuel) else empty p
        | .flowSequenceStart =>
          next
          return .seq (← flowItems true fuel)
        | .flowMappingStart =>
          next
          return .map (← flowEntries true fuel)
        | .sequenceStart =>
          if isBlock then
            next
            return .seq (← blockItems fuel)
          else empty p
        | .mappingStart =>
          if isBlock then
            next
            return .map (← blockEntries fuel)
          else empty p
        | _ => empty p

/-- A node of which only properties are written. -/
def empty (p : Properties) : Read Node :=
  if p.anchor.isSome || p.tag.isSome then return .scalar (p.tag.bind shortTag) true [] else failure

def blockItems : Nat → Read (List Node)
  | 0 => failure
  | fuel + 1 => do
    match ← peek with
    | .item =>
      next
      let n ← unlessEnded (fun t => t = .item || t = .blockEnd) (node true false fuel)
      return n :: (← blockItems fuel)
    | .blockEnd =>
      next
      return []
    | _ => failure

/-- Reads the items of a sequence that is not indented; it ends where no item follows. -/
def unindentedItems : Nat → Read (List Node)
  | 0 => failure
  | fuel + 1 => do
    match ← peek with
    | .item =>
      next
      let n ← unlessEnded (fun t => t = .item || endsBlockPart t) (node true false fuel)
      return n :: (← unindentedItems fuel)
    | _ => return []

def blockEntries : Nat → Read (List (Node × Node))
  | 0 => failure
  | fuel + 1 => do
    match ← peek with
    | .key =>
      next
      let k ← unlessEnded endsBlockPart (node true true fuel)
      let v ← valueAfterMark endsBlockPart (node true true fuel)
      return (k, v) :: (← blockEntries fuel)
    | .blockEnd =>
      next
      return []
    | _ => failure

/-- Reads the items of a flow sequence. A key in it makes a mapping of one entry; a token that would end
the key is passed over. -/
def flowItems (isFirst : Bool) : Nat → Read (List Node)
  | 0 => failure
  | fuel + 1 => do
    let closing := Token.flowSequenceEnd
    if (← peek) = closing then
      next
      return []
    if !isFirst then
      if (← peek) ≠ .comma then failure
      next
    match ← peek with
    | .flowSequenceEnd =>
      next
      return []
    | .key =>
      next
      let k ← do
        if endsFlowKey closing (← peek) then
          next
          pure Node.empty
        else node false false fuel
      let v ← valueAfterMark (endsFlowValue closing) (node false false fuel)
      return .map [(k, v)] :: (← flowItems false fuel)
    | _ =>
      let n ← node false false fuel
      return n :: (← flowItems false fuel)

/-- Reads the entries of a flow mapping. A node without a mark of a key has no value. -/
def flowEntries (isFirst : Bool) : Nat → Read (List (Node × Node))
  | 0 => failure
  | fuel + 1 => do
    let closing := Token.flowMappingEnd
    if (← peek) = closing then
      next
      return []
    if !isFirst then
      if (← peek) ≠ .comma then failure
      next
    match ← peek with
    | .flowMappingEnd =>
      next
      return []
    | .key =>
      next
      let k ← unlessEnded (endsFlowKey closing) (node false false fuel)
      let v ← valueAfterMark (endsFlowValue closing) (node false false fuel)
      return (k, v) :: (← flowEntries false fuel)
    | _ =>
      let k ← node false false fuel
      return (k, .empty) :: (← flowEntries false fuel)

end

/-! ## Documents -/

def directives (hasVersion : Bool) : Nat → Read Unit
  | 0 => failure
  | fuel + 1 => do
    match ← peek with
    | .version major minor =>
      if hasVersion || major ≠ 1 || minor ≠ 1 then failure
      next
      directives true fuel
    | .handle name expansion =>
      if ((← get).handles.lookup name).isSome then failure
      next
      modify fun d => { d with handles := (name, expansion) :: d.handles }
      directives hasVersion fuel
    | _ => return ()

/-- Whether a token shows that a document with a mark at its start has no content. -/
def endsContent : Token → Bool
  | .version _ _ | .handle _ _ | .documentStart | .documentEnd | .streamEnd => true
  | _ => false

/-- Reads a document; there has to be one. -/
def document (fuel : Nat) : Read Node := do
  let root ← do
    match ← peek with
    | .streamEnd => failure
    | .version _ _ | .handle _ _ | .documentStart =>
      directives false fuel
      if (← peek) ≠ .documentStart then failure
      next
      unlessEnded endsContent (node true false fuel)
    | _ => node true false fuel
  let _ ← peek
  return root

end Read

/-- The node that the first document of a text stands for; `none` if there is no document or the text
breaks the rules up to its end. -/
def parse? (t : Text) : Option Node :=
  ((Read.document (16 * (t.length + 4))).run { stream := .ofText t }).map (·.1)

end Bytelift.Yaml
