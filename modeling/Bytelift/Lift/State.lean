import Bytelift.Flow.Partition
import Bytelift.Settings

/-!
# The state of a lifting

A method is lifted block by block. Inside a block the operand stack is symbolic: a list of IR values.
At the end of a block it is stored into stack slots, and a block starts by loading it from there, so
that values never cross from one bytecode block to another.

A lifting keeps the module under construction, the blocks found so far with the shapes of their stacks,
the sites that wait for a landingpad, and the cleanup regions. The part that belongs to the block being
lifted is its cursor.
-/

namespace Bytelift.Lift

open Ir

/-- The cleanup regions whose code a block belongs to, by their handlers. The innermost comes first,
and each is followed by the region from whose code it was first entered. -/
abbrev Owner := List Int

/-- Where a transfer of control goes: to a bci, or out of the method. -/
inductive Exit
  | jump (bci : Int)
  | ret
  deriving DecidableEq, Repr

/-- The rows of the exception table that share one cleanup handler. Every way into the handler first
stores a key in the selector, and the end of the handler switches on that key. -/
structure Region where
  handler : Int
  rows : List ExceptionEntry
  selector : Slot
  /-- The owner of the code that first entered the handler, once it is entered. -/
  outer : Option Owner := none
  /-- The blocks behind the handler; the key of each is its position. -/
  exits : List BlockId := []
  /-- The blocks that end the handler, each with the selector that it loads. -/
  ends : List (BlockId × ValueId) := []
  deriving DecidableEq, Repr

def Region.covers (r : Region) (bci : Int) : Bool := r.rows.any (·.covers bci)

/-- How control comes to a block: the types on the stack, the lowest first, and the owner. -/
structure Entry where
  shape : List Ty
  owner : Owner
  deriving DecidableEq, Repr

/-- A block that may unwind at a bci and has no landingpad yet. -/
structure Site where
  bci : Int
  block : BlockId
  owner : Owner
  deriving DecidableEq, Repr

/-- A value on the symbolic stack. -/
structure StackEntry where
  id : ValueId
  ty : Ty
  deriving DecidableEq, Repr

/-- What a lifting reports as it goes. -/
inductive Record
  | loweredBlock (start stop stack : Nat)
  | builtPad (bci : Int) (clauses : Nat) (cleanup : Bool)
  | bailedOut (b : Bailout)
  | listing (text : Text)
  | finished (blocks insts pads : Nat)
  deriving DecidableEq, Repr

def Record.text (method : Text) : Record → Text
  | .loweredBlock start stop stack =>
    "trace Lowered block method=" ++ method ++ " start=" ++ Text.ofNat start ++ " end=" ++
      Text.ofNat stop ++ " stack=" ++ Text.ofNat stack
  | .builtPad bci clauses cleanup =>
    "trace Built landingpad method=" ++ method ++ " bci=" ++ Text.ofInt bci ++ " clauses=" ++
      Text.ofNat clauses ++ " cleanup=" ++ Text.ofBool cleanup
  | .bailedOut b =>
    "warn Translation bailed out method=" ++ method ++ " kind=" ++ b.kind.name ++ " bci=" ++
      Text.ofInt b.bci ++ " reason=" ++ b.reason.text
  | .listing t => "info IR dump\n" ++ t ++ " method=" ++ method
  | .finished blocks insts pads =>
    "debug Translated method method=" ++ method ++ " blocks=" ++ Text.ofNat blocks ++ " insts=" ++
      Text.ofNat insts ++ " landingpads=" ++ Text.ofNat pads

/-- The block being lifted. -/
structure Cursor where
  owner : Owner := []
  /-- The IR block that instructions go to. -/
  block : BlockId := noBlock
  /-- The symbolic operand stack, the top first. -/
  stack : List StackEntry := []
  /-- The bci of an instruction that may throw and has not ended its IR block yet. -/
  pending : Option Int := none
  bci : Int := 0
  /-- Whether the block has its terminator. -/
  done : Bool := false
  /-- Values that are known not to be null. -/
  nonNull : List ValueId := []
  deriving DecidableEq, Repr

/-- What does not change during a lifting. -/
structure Context where
  method : Method
  type : MethodType
  partition : Partition
  allow : Option (List Opcode)
  elideGuards : Bool
  nestingLimit : Nat
  debugLogs : Bool
  deriving DecidableEq, Repr

/-- What changes during a lifting. -/
structure State where
  builder : Builder
  /-- The bcis of the blocks that control comes to, in the order in which they are to be lifted. -/
  entries : List (Int × Entry) := []
  regions : List Region := []
  /-- The sites without a landingpad, in order. -/
  sites : List Site := []
  pads : List (Int × BlockId) := []
  /-- The blocks that route an exit through the given regions. -/
  leaves : List ((List Int × Exit) × BlockId) := []
  returnBlock : Option BlockId := none
  maxStack : Nat := 0
  /-- The records so far, the latest first. -/
  records : List Record := []
  cursor : Cursor := {}
  deriving DecidableEq, Repr

/-- A step of a lifting, which may give up. The state is kept then too, for the records in it. -/
abbrev LiftM := ExceptT Bailout (StateM State)

/-- Gives up at a bci. -/
def failAt {α : Type} (bci : Int) (r : Reason) : LiftM α := throw { bci := bci, reason := r }

/-- Gives up at the instruction being lifted. -/
def failHere {α : Type} (r : Reason) : LiftM α := do failAt (← get).cursor.bci r

/-- Gives up at a bci if a condition holds. -/
def refuseIf (c : Prop) [Decidable c] (bci : Int) (r : Reason) : LiftM Unit :=
  if c then failAt bci r else pure ()

/-- Gives up at the instruction being lifted if a condition holds. -/
def refuseHereIf (c : Prop) [Decidable c] (r : Reason) : LiftM Unit :=
  if c then failHere r else pure ()

/-- A part of the state that has to be there. -/
def require {α : Type} : Option α → LiftM α
  | some a => pure a
  | none => failAt (-1) .internal

/-! ## Building -/

def bciLabel (bci : Int) (suffix : Text) : Text := "bci_" ++ Text.ofInt bci ++ suffix

def newBlock (label : Text) (bci : Int) (kind : BlockKind) : LiftM BlockId :=
  modifyGet fun s =>
    let (b, builder) := s.builder.newBlock label bci kind
    (b, { s with builder := builder })

def temp (name : Text) : LiftM Slot :=
  modifyGet fun s =>
    let (slot, builder) := s.builder.temp name
    (slot, { s with builder := builder })

/-- Appends an instruction to a block as it is. -/
def emitIn (b : BlockId) (i : Inst) : LiftM ValueId := do
  let s ← get
  let _ ← require (s.builder.mod.block? b)
  let (v, builder) := s.builder.emit b i
  set { s with builder := builder }
  return v

/-- Changes the module under construction. -/
def modifyModule (f : Module → Module) : LiftM Unit :=
  modify fun s => { s with builder := { s.builder with mod := f s.builder.mod } }

def changeBlock (b : BlockId) (f : Block → Block) : LiftM Unit := do
  let _ ← require ((← get).builder.mod.block? b)
  modifyModule fun m => m.modifyBlock b f

def setTerm (b : BlockId) (t : Terminator) : LiftM Unit := changeBlock b fun k => { k with term := t }

def modifyCursor (f : Cursor → Cursor) : LiftM Unit :=
  modify fun s => { s with cursor := f s.cursor }

def modifyRegion (handler : Int) (f : Region → Region) : LiftM Unit :=
  modify fun s =>
    { s with regions := s.regions.map fun r => if r.handler = handler then f r else r }

/-- Makes the frame hold at least `n` stack slots. -/
def needStack (n : Nat) : LiftM Unit := modify fun s => { s with maxStack := max s.maxStack n }

def addSite (bci : Int) (b : BlockId) (owner : Owner) : LiftM Unit :=
  modify fun s => { s with sites := s.sites ++ [⟨bci, b, owner⟩] }

def regionOf (handler : Int) : LiftM Region := do
  require ((← get).regions.find? (·.handler = handler))

namespace Context

def table (cx : Context) : HandlerTable := cx.method.exceptions

def result (cx : Context) : Ty := Ty.ofKind cx.type.result.kind

/-- Adds a record of detail, if it is asked for. -/
def trace (cx : Context) (r : Record) : LiftM Unit :=
  if cx.debugLogs then modify fun s => { s with records := r :: s.records } else pure ()

/-- The IR block of a bytecode block. The entry block comes first, the bytecode blocks follow in
order. -/
def blockOf (cx : Context) (bci : Int) : BlockId :=
  match cx.partition.blocks.findIdx? fun b => (b.start : Int) = bci with
  | some i => i + 1
  | none => 0

/-- Schedules the block at a bci. A block that control reaches twice has one shape and one owner. -/
def enqueue (cx : Context) (bci : Int) (shape : List Ty) (owner : Owner) : LiftM Unit := do
  let s ← get
  refuseIf (s.regions.any (·.handler = bci) ∧ owner.head? ≠ some bci) bci .entersCleanup
  match s.entries.lookup bci with
  | some e =>
    refuseIf (e.owner.head? ≠ owner.head?) bci .sharedBlock
    refuseIf (e.shape ≠ shape) bci (.stackMismatch e.shape shape)
  | none =>
    refuseIf (cx.partition.blockAt? bci).isNone bci .notBlock
    set { s with entries := s.entries ++ [(bci, ({ shape := shape, owner := owner } : Entry))] }

/-! ## The block being lifted -/

/-- Ends the IR block behind an instruction at a bci that may throw, with the given block behind it. -/
def closeFaulting (bci : Int) (next : BlockId) : LiftM Unit := do
  let c := (← get).cursor
  setTerm c.block (.mayUnwind next noBlock)
  addSite bci c.block c.owner
  modifyCursor fun c => { c with pending := none }

/-- Ends the IR block behind an instruction that may throw, and goes on in a block behind it. -/
def flushPending : LiftM Unit := do
  match (← get).cursor.pending with
  | none => pure ()
  | some bci =>
    let next ← newBlock (bciLabel bci "_normal") bci .continue
    closeFaulting bci next
    modifyCursor fun c => { c with block := next }

/-- Appends an instruction at the current bci. One that may throw in a protected range ends its IR
block before the next instruction. -/
def emit (cx : Context) (i : Inst) : LiftM ValueId := do
  flushPending
  let c := (← get).cursor
  let v ← emitIn c.block { i with bci := c.bci }
  let pending := if i.op.mayThrow && cx.table.isProtected c.bci then some c.bci else none
  modifyCursor fun c => { c with pending := pending }
  return v

def push (v : ValueId) (ty : Ty) : LiftM Unit :=
  modifyCursor fun c => { c with stack := ⟨v, ty⟩ :: c.stack }

def emitPush (cx : Context) (i : Inst) : LiftM Unit := do
  let v ← cx.emit i
  push v i.ty

def pop : LiftM StackEntry := do
  match (← get).cursor.stack with
  | [] => failHere .underflow
  | e :: rest =>
    modifyCursor fun c => { c with stack := rest }
    return e

def popTy (wanted : Ty) : LiftM ValueId := do
  let e ← pop
  refuseHereIf (e.ty ≠ wanted) (.operandType e.ty wanted)
  return e.id

/-- Pops values of the given types, the last one first. -/
def popAll (wanted : List Ty) : LiftM (List ValueId) := do
  let popped ← wanted.reverse.mapM popTy
  return popped.reverse

/-- The types on the stack, the lowest first. -/
def stackShape : LiftM (List Ty) := do return (← get).cursor.stack.reverse.map (·.ty)

/-- Ends the IR block, in which no instruction is left that may throw. -/
def close (cx : Context) (t : Terminator) : LiftM Unit := do
  let c := (← get).cursor
  setTerm c.block t
  if t.isThrow && cx.table.isProtected c.bci then addSite c.bci c.block c.owner else pure ()

/-- Ends the block. -/
def terminate (cx : Context) (t : Terminator) : LiftM Unit := do
  modifyCursor fun c => { c with done := true }
  match (← get).cursor.pending, t.jump? with
  | some bci, some target => closeFaulting bci target
  | _, _ =>
    flushPending
    cx.close t

def store (cx : Context) (slot : Slot) (v : ValueId) : LiftM Unit := do
  let _ ← cx.emit { op := .storeSlot, slot := slot, args := [v] }

def load (cx : Context) (slot : Slot) (ty : Ty) : LiftM ValueId :=
  cx.emit { op := .loadSlot, ty := ty, slot := slot }

/-- Stores the operand stack into stack slots. -/
def spill (cx : Context) : LiftM Unit := do
  let stack := (← get).cursor.stack.reverse
  stack.zipIdx.forM fun (e, i) => cx.store ⟨.stack, i⟩ e.id
  needStack stack.length

/-- Makes the operand stack fresh loads of stack slots. -/
def reload (cx : Context) (shape : List Ty) : LiftM Unit := do
  modifyCursor fun c => { c with stack := [] }
  shape.zipIdx.forM fun (ty, i) => cx.emitPush { op := .loadSlot, ty := ty, slot := ⟨.stack, i⟩ }

def zero (cx : Context) (ty : Ty) : LiftM ValueId :=
  if ty = .ref then cx.emit { op := .constNull, ty := .ref } else cx.emit { op := .const, ty := ty }

/-- An i32 constant, cut to 32 bits. -/
def constInt (cx : Context) (v : Int64) : LiftM ValueId :=
  cx.emit { op := .const, ty := .i32, imm := v.toInt32.toInt64 }

def constant? (v : ValueId) : LiftM (Option Int64) := do
  let i ← require ((← get).builder.mod.inst? v)
  return if i.op = .const ∧ (i.ty = .i32 ∨ i.ty = .i64) then some i.imm else none

def markNonNull (v : ValueId) : LiftM Unit :=
  modifyCursor fun c => { c with nonNull := v :: c.nonNull }

/-- Appends an instruction that only checks its operands. -/
def check (cx : Context) (op : Op) (args : List ValueId) : LiftM Unit := do
  let _ ← cx.emit { op := op, args := args }

/-- Checks that a reference is not null, unless that is known. -/
def checkNull (cx : Context) (v : ValueId) : LiftM Unit := do
  if cx.elideGuards && (← get).cursor.nonNull.contains v then pure ()
  else cx.check .checkNull [v]

/-- Checks that a divisor is not zero, unless that is known. -/
def checkDivZero (cx : Context) (v : ValueId) : LiftM Unit := do
  let known := (← constant? v).any (· ≠ 0)
  if cx.elideGuards && known then pure () else cx.check .checkDivZero [v]

/-- Checks that a length is not negative, unless that is known. -/
def checkNonNeg (cx : Context) (v : ValueId) : LiftM Unit := do
  let known := (← constant? v).any (0 ≤ ·)
  if cx.elideGuards && known then pure () else cx.check .checkNonNeg [v]

end Context
end Bytelift.Lift
