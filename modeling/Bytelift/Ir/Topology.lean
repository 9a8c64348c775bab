import Bytelift.Assoc
import Bytelift.Ir.Dump

/-!
# Exception topology

The exceptional control flow of a module by labels: the landingpad of each throwing bci with its
clauses, and the landingpad that each block unwinds to. It is computed from a module, and it can be
read back from the listing of the module.
-/

namespace Bytelift.Ir

/-- A landingpad by labels. A clause is its kind and the label of its target. -/
structure PadShape where
  label : Text
  cleanup : Bool := false
  clauses : List Text := []
  deriving DecidableEq, Repr

/-- The landingpads by bci and the unwind edges by label, each key once. -/
structure Topology where
  pads : List (Int × PadShape) := []
  unwind : List (Text × Text) := []
  deriving DecidableEq, Repr

/-- Whether a byte is a blank of the listing format: a space, tab, line feed, form feed or carriage
return. -/
def isBlank (b : UInt8) : Bool := b = 32 || b = 9 || b = 10 || b = 12 || b = 13

/-- A nonempty text without blanks. -/
def isWord (t : Text) : Bool := !t.isEmpty && t.all fun b => !isBlank b

def after? (beginning : Text) (t : Text) : Option Text :=
  if beginning.isPrefixOf t then some (t.drop beginning.length) else none

/-- The target of a clause, from the text behind its kind. -/
def clauseTarget? (t : Text) : Option Text := do
  let target ← after? " label %" t
  if isWord target then some target else none

def parseClause? (t : Text) : Option (Text × Text) :=
  match after? "cleanup" t, after? "catch " t with
  | some rest, _ => (clauseTarget? rest).map fun target => ("cleanup", target)
  | none, some rest =>
    let ty := rest.takeWhile fun b => !isBlank b
    if ty.isEmpty then none
    else (clauseTarget? (rest.drop ty.length)).map fun target => ("catch " ++ ty, target)
  | none, none => none

/-- A clause of a listing in short form; a text that is no clause stays as it is. -/
def clauseKey (t : Text) : Text :=
  match parseClause? t with
  | some (kind, target) => kind ++ " " ++ target
  | none => t

namespace Module

def padShape? (m : Module) (b : Block) (pad : Landingpad) : Option PadShape := do
  let clauses ← pad.clauses.mapM m.clauseText?
  return ⟨b.label, pad.cleanup, clauses.map clauseKey⟩

def addShape? (m : Module) (t : Topology) (b : Block) : Option Topology := do
  let pads ← match b.pad with
    | none => some t.pads
    | some pad => do
      let shape ← m.padShape? b pad
      some (assign pad.bci shape t.pads)
  let target := b.term.unwind
  if target = noBlock then return { t with pads := pads }
  else
    let pad ← m.block? target
    return ⟨pads, assign b.label pad.label t.unwind⟩

/-- The topology of a module; `none` if an edge leads nowhere. -/
def topology? (m : Module) : Option Topology := m.blocks.toList.foldlM m.addShape? {}

end Module

/-! ## Reading -/

inductive TopologyError
  | outsideBlock (line : Nat)
  | outsidePad (line : Nat)
  | badClause (line : Nat) (body : Text)
  | lineTooLong
  deriving DecidableEq, Repr

def TopologyError.message : TopologyError → Text
  | .outsideBlock n => "line " ++ Text.ofNat n ++ ": instruction outside a block"
  | .outsidePad n => "line " ++ Text.ofNat n ++ ": clause outside a landingpad"
  | .badClause n body => "line " ++ Text.ofNat n ++ ": bad clause " ++ body.quote
  | .lineTooLong => "read dump: bufio.Scanner: token too long"

namespace Topology

/-- The bci in the label of a landingpad, cut to the largest 64-bit integer. -/
def padBci? (label : Text) : Option Int := do
  let rest ← after? "bci_" label
  let digits := rest.takeWhile Number.isDigit
  if digits.isEmpty ∨ rest.drop digits.length ≠ "_unwind_dest" then none
  else
    let n := digits.foldl (fun n b => n * 10 + (b.toNat - 48)) 0
    some (min n (Nat.pow 2 63 - 1) : Nat)

def unwindTarget? : Text → Option Text
  | [] => none
  | b :: t =>
    match after? "unwind label %" (b :: t) with
    | some target => if isWord target then some target else unwindTarget? t
    | none => unwindTarget? t

/-- What has been read so far: the finished part, the label of the current block, and the landingpad
being read. -/
structure Reader where
  done : Topology := {}
  label : Text := []
  pad : Option (Int × PadShape) := none
  deriving DecidableEq, Repr

/-- The topology with the landingpad being read. -/
def Reader.flush (r : Reader) : Topology :=
  match r.pad with
  | none => r.done
  | some (bci, pad) => { r.done with pads := assign bci pad r.done.pads }

/-- Whether a line says nothing about the topology. -/
def isIgnored (line : Text) : Bool :=
  line.isEmpty || (Text.ofString ";").isPrefixOf line ||
    (Text.ofString "define ").isPrefixOf line || line == "\x7d"

def Reader.line (r : Reader) (n : Nat) (line : Text) : Except TopologyError Reader :=
  if isIgnored line then .ok r
  else if !(Text.ofString " ").isPrefixOf line && (Text.ofString ":").isSuffixOf line then
    let label := line.dropLast
    .ok ⟨r.flush, label, (padBci? label).map fun bci => (bci, { label := label })⟩
  else if r.label.isEmpty then .error (.outsideBlock n)
  else
    let body := Text.trimSpace line
    if (Text.ofString "    ").isPrefixOf line then
      match r.pad with
      | none => .error (.outsidePad n)
      | some (bci, pad) =>
        if body = "cleanup" then .ok { r with pad := some (bci, { pad with cleanup := true }) }
        else
          match parseClause? body with
          | none => .error (.badClause n body)
          | some _ =>
            .ok { r with pad := some (bci, { pad with clauses := pad.clauses ++ [clauseKey body] }) }
    else
      match unwindTarget? body with
      | none => .ok r
      | some target => .ok { r with done.unwind := assign r.label target r.done.unwind }

/-- Reads the lines from number `n` on. -/
def Reader.lines (r : Reader) : Nat → List Text → Except TopologyError Reader
  | _, [] => .ok r
  | n, l :: ls =>
    match r.line n l with
    | .error e => .error e
    | .ok r => Reader.lines r (n + 1) ls

def parse (listing : Text) : Except TopologyError Topology := do
  let source := Text.lines listing
  let r ← Reader.lines {} 1 source.lines
  if source.tooLong then .error .lineTooLong else .ok r.flush

end Topology
end Bytelift.Ir
