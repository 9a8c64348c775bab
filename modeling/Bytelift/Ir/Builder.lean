import Bytelift.Ir.Verify

/-!
# Building modules

A builder holds a module that grows block by block and instruction by instruction. It keeps the first
mistake that it is asked to make and reports it when the module is to be frozen. Freezing computes the
edges, verifies the module and marks it as complete.
-/

namespace Bytelift.Ir

/-- Why a module cannot be frozen. -/
inductive BuildError
  | terminated (op : Op) (label : Text)
  | undefinedValue (op : Op) (label : Text) (value : ValueId)
  | unknownEdge (label : Text) (target : BlockId)
  | refused (e : VerifyError)
  deriving DecidableEq, Repr

def BuildError.message : BuildError → Text
  | .terminated op label => "emit " ++ op.name ++ " into terminated block " ++ label
  | .undefinedValue op label v =>
    op.name ++ " in " ++ label ++ " uses undefined value " ++ Text.ofInt v
  | .unknownEdge label t => "block " ++ label ++ " has edge to unknown block " ++ Text.ofInt t
  | .refused e => e.message

/-- A module under construction. -/
structure Builder where
  mod : Module
  /-- The label asked for by each call of `newBlock`, the latest first. -/
  requested : List Text := []
  /-- The first mistake. -/
  error : Option BuildError := none
  deriving DecidableEq, Repr

namespace Builder

def new (method : Text) : Builder := { mod := { method := method } }

/-- Whether a block can be written to: it exists, and the module is not frozen. -/
def isOpen (b : Builder) (blk : BlockId) : Bool := !b.mod.frozen && b.mod.hasBlock blk

/-- A label with a number behind it if the same label was asked for before. -/
def freshLabel (b : Builder) (label : Text) : Text :=
  match b.requested.count label with
  | 0 => label
  | n => label ++ "." ++ Text.ofNat n

/-- Appends a block and returns its reference. -/
def newBlock (b : Builder) (label : Text) (bci : Int) (kind : BlockKind) : BlockId × Builder :=
  let id : BlockId := b.mod.blocks.size
  let blk : Block := { id := id, label := b.freshLabel label, start := bci, stop := bci, kind := kind }
  (id, { b with
    mod := { b.mod with blocks := b.mod.blocks.push blk }
    requested := label :: b.requested })

/-- The temporary slot with a name, which is created if it is new. -/
def temp (b : Builder) (name : Text) : Slot × Builder :=
  match b.mod.temps.findIdx? (· == name) with
  | some i => (⟨.temp, i⟩, b)
  | none => (⟨.temp, b.mod.temps.size⟩, { b with mod := { b.mod with temps := b.mod.temps.push name } })

/-- The mistake in emitting an instruction into a block, if there is one. -/
def emitError? (b : Builder) (blk : Block) (i : Inst) : Option BuildError :=
  if blk.term ≠ .none then some (.terminated i.op blk.label)
  else
    (i.args.find? fun a => a < 0 || (b.mod.insts.size : Int) ≤ a).map
      (.undefinedValue i.op blk.label)

/-- Appends an instruction to a block and returns its value. -/
def emit (b : Builder) (blk : BlockId) (i : Inst) : ValueId × Builder :=
  let id : ValueId := b.mod.insts.size
  let error := b.error.or ((b.mod.block? blk).bind fun k => b.emitError? k i)
  let mod := { b.mod with insts := b.mod.insts.push { i with id := id, block := blk } }
  (id, { b with
    mod := mod.modifyBlock blk fun k => { k with insts := k.insts.push id }
    error := error })

/-- Sets or replaces the terminator of a block. -/
def setTerm (b : Builder) (blk : BlockId) (t : Terminator) : Builder :=
  { b with mod := b.mod.modifyBlock blk fun k => { k with term := t } }

def isTerminated (b : Builder) (blk : BlockId) : Bool :=
  (b.mod.block? blk).any (·.term ≠ .none)

/-- Enters the edges of the given blocks, up to the first edge that leads nowhere. -/
def connectFrom : List Block → Module → Module × Option BuildError
  | [], m => (m, none)
  | b :: bs, m =>
    let succs := b.term.successors
    let known := succs.takeWhile m.hasBlock
    let m := m.modifyBlock b.id fun k => { k with succs := succs }
    let m := known.foldl (fun m s => m.modifyBlock s fun k => { k with preds := k.preds ++ [b.id] }) m
    match succs.drop known.length with
    | s :: _ => (m, some (.unknownEdge b.label s))
    | [] => connectFrom bs m

/-- Computes predecessors and successors anew. -/
def connect (m : Module) : Module × Option BuildError :=
  let cleared := { m with blocks := m.blocks.map fun k => { k with preds := [], succs := [] } }
  connectFrom cleared.blocks.toList cleared

/-- Completes the module. A builder that fails can be used further. -/
def freeze (b : Builder) : Except BuildError Module × Builder :=
  match b.error with
  | some e => (.error e, b)
  | none =>
    match connect b.mod with
    | (m, some e) => (.error e, { b with mod := m })
    | (m, none) =>
      match m.verify with
      | .error e => (.error (.refused e), { b with mod := m })
      | .ok () =>
        let frozen := { m with frozen := true }
        (.ok frozen, { b with mod := frozen })

end Builder
end Bytelift.Ir
