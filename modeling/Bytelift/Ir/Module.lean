import Bytelift.Code.ConstantPool
import Bytelift.Ir.Op

/-!
# IR modules

A module is one method in block form: blocks and instructions in two arrays that refer to each
other by position. The value of an instruction is its position. A reference is an integer; `-1` is
written where there is none, and every other number outside the array names nothing.

An instruction lists all its operands in `args`, so that checks need not know the payload of each
operation.
-/

namespace Bytelift.Ir

/-- A reference to an instruction and so to its value. -/
abbrev ValueId := Int

abbrev BlockId := Int

def noValue : ValueId := -1

def noBlock : BlockId := -1

/-- The element at a reference. -/
def lookup? {α : Type} (a : Array α) (i : Int) : Option α :=
  if 0 ≤ i then a[i.toNat]? else none

/-- The area of a frame that a slot lies in. -/
inductive SlotSpace
  | local
  | stack
  | temp
  deriving DecidableEq, Repr

/-- A place in a frame. -/
structure Slot where
  space : SlotSpace
  index : Int
  deriving DecidableEq, Repr

/-- One allocation. For arrays, `cls` is the array descriptor and `length` the value of the length;
`elem` is the kind of the elements, `none` if it is none of the kinds, and `elemClass` the descriptor
of the elements of an object array. -/
structure AllocSite where
  kind : AllocKind
  cls : Text
  elem : Option Kind := some .void
  elemClass : Text := []
  length : ValueId := noValue
  deriving DecidableEq, Repr

/-- One call. A call that is not bound goes through `slot`, the value of a look-up on the class of the
receiver. -/
structure CallSite where
  dispatch : Dispatch
  method : MethodRef
  slot : ValueId := noValue
  receiver : ValueId := noValue
  args : List ValueId := []
  deriving DecidableEq, Repr

structure Inst where
  id : ValueId := 0
  op : Op
  ty : Ty := .void
  args : List ValueId := []
  bci : Int := 0
  imm : Int64 := 0
  fimm : Double := ⟨0⟩
  sym : Text := []
  slot : Slot := ⟨.local, 0⟩
  alloc : Option AllocSite := none
  call : Option CallSite := none
  block : BlockId := 0
  deriving DecidableEq, Repr

/-- Whether the instruction defines a value. -/
def Inst.hasResult (i : Inst) : Bool := i.ty ≠ .void

structure SwitchCase where
  key : Int
  target : BlockId
  deriving DecidableEq, Repr

/-- How a block ends. -/
inductive Terminator
  | none
  | goto (target : BlockId)
  /-- Goes on at the next bytecode block. -/
  | fallthrough (target : BlockId)
  | condBr (cond : ValueId) (target alt : BlockId)
  /-- Dispatches on an i32; `fallback` is `noBlock` if there is no default. -/
  | switch (key : ValueId) (fallback : BlockId) (cases : List SwitchCase)
  /-- Returns a value, or nothing with `noValue`. -/
  | ret (value : ValueId)
  /-- Raises a value, to a landingpad unless `unwind` is `noBlock`. -/
  | throw (value : ValueId) (unwind : BlockId)
  /-- Goes on at `target` unless the last instruction faults. -/
  | mayUnwind (target unwind : BlockId)
  /-- Raises a value in the caller. -/
  | resume (value : ValueId)
  /-- Control never comes here. -/
  | unreachable
  /-- A number that stands for no terminator. -/
  | unknown (code : Nat)
  deriving DecidableEq, Repr

namespace Terminator

/-- The edges of a terminator in order, absent ones included. -/
def edges : Terminator → List BlockId
  | .goto t | .fallthrough t => [t]
  | .condBr _ t e => [t, e]
  | .switch _ d cs => cs.map (·.target) ++ [d]
  | .mayUnwind t u => [t, u]
  | .throw _ u => [u]
  | _ => []

/-- The distinct successors in edge order. -/
def successors (t : Terminator) : List BlockId :=
  t.edges.foldl (fun out b => if b = noBlock ∨ out.contains b then out else out ++ [b]) []

/-- The only destination of an unconditional jump. -/
def jump? : Terminator → Option BlockId
  | .goto t | .fallthrough t => some t
  | _ => .none

/-- Whether the block ends by raising a value. -/
def isThrow : Terminator → Bool
  | .throw _ _ => true
  | _ => false

/-- Where a fault goes, or `noBlock`. -/
def unwind : Terminator → BlockId
  | .throw _ u | .mayUnwind _ u => u
  | _ => noBlock

/-- The terminator with its unwind edge set; only faulting terminators have one. -/
def withUnwind (t : Terminator) (pad : BlockId) : Terminator :=
  match t with
  | .throw v _ => .throw v pad
  | .mayUnwind n _ => .mayUnwind n pad
  | t => t

end Terminator

/-- What a step of a landingpad does. -/
inductive Clause
  | catch (type : Text) (target : BlockId)
  | catchAny (target : BlockId)
  | cleanup (target : BlockId)
  deriving DecidableEq, Repr

/-- The handler block of a catch, the entry block of cleanup code. -/
def Clause.target : Clause → BlockId
  | .catch _ t | .catchAny t | .cleanup t => t

/-- The unwind destination of one throwing bci. `cleanup` says that control must run code before the
exception leaves the pad: there is cleanup code, or no clause catches every exception. -/
structure Landingpad where
  bci : Int := 0
  clauses : List Clause := []
  cleanup : Bool := false
  deriving DecidableEq, Repr

structure Block where
  id : BlockId
  label : Text
  start : Int
  stop : Int
  kind : BlockKind
  insts : Array ValueId := #[]
  term : Terminator := .none
  preds : List BlockId := []
  succs : List BlockId := []
  pad : Option Landingpad := none
  deriving DecidableEq, Repr

def Block.last (b : Block) : ValueId := b.insts.back?.getD noValue

/-- One method in block form. -/
structure Module where
  method : Text
  params : List Ty := []
  result : Ty := .void
  entry : BlockId := noBlock
  blocks : Array Block := #[]
  insts : Array Inst := #[]
  temps : Array Text := #[]
  numLocals : Int := 0
  numStack : Int := 0
  frozen : Bool := false
  deriving DecidableEq, Repr

namespace Module

def block? (m : Module) (b : BlockId) : Option Block := lookup? m.blocks b
def inst? (m : Module) (v : ValueId) : Option Inst := lookup? m.insts v

/-- Changes the block at a reference. -/
def modifyBlock (m : Module) (b : BlockId) (f : Block → Block) : Module :=
  if 0 ≤ b then { m with blocks := m.blocks.modify b.toNat f } else m

def blockByLabel? (m : Module) (label : Text) : Option Block :=
  m.blocks.find? fun b => b.label == label

def landingpads (m : Module) : List Block := m.blocks.toList.filter fun b => b.pad.isSome

end Module
end Bytelift.Ir
