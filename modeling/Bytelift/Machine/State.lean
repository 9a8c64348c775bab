import Bytelift.Machine.Arith
import Bytelift.Machine.Env

/-!
# The state of the machine

The machine holds the environment, the heap and the meters of a run: how many blocks it may enter, how
many blocks it entered and instructions it started, the labels of the first blocks, and the first calls
of native methods with the heap as it was then, up to a limit.

A computation of the machine ends with a value, or it stops: with an exception that leaves the code,
with an error that code cannot catch, because it is stuck on something that the rules of modules do not
exclude, or because the budget of blocks is used up. It keeps the state however it ends.
-/

namespace Bytelift.Machine

open Ir

/-- An error that code cannot catch. -/
inductive RunError
  | bailout (b : Bailout)
  | noMethod (key : Text)
  | arity (method : Text) (wanted given : Nat)
  | notFrozen (method : Text)
  | undefinedOp (op : Op) (ty : Ty)
  | negativeLength (method : Text) (length : Int)
  | noCase (method label : Text) (key : Int)
  | noTerminator (method label : Text) (unreachable : Bool)
  | orderedRefs
  | badSymbol (sym : Text)
  | noException (method : Text)
  | native (message : Text)
  deriving DecidableEq, Repr

def RunError.message : RunError → Text
  | .bailout b => b.message
  | .noMethod key => "no method " ++ key
  | .arity method wanted given =>
    method ++ " takes " ++ Text.ofNat wanted ++ " arguments, have " ++ Text.ofNat given
  | .notFrozen method => "module " ++ method ++ " is not frozen"
  | .undefinedOp op ty => op.name ++ " on " ++ ty.name
  | .negativeLength method n => method ++ ": unguarded negative array length " ++ Text.ofInt n
  | .noCase method label key =>
    method ++ ": switch in " ++ label ++ " has no case " ++ Text.ofInt key
  | .noTerminator method label unreachable =>
    method ++ ": block " ++ label ++ " reached " ++
      (if unreachable then "unreachable" else "no terminator" : Text)
  | .orderedRefs => "ordered compare of references"
  | .badSymbol sym => "bad method symbol " ++ sym.quote
  | .noException method => method ++ ": landingpad entered without an exception"
  | .native message => message

/-- Why a computation stopped without a value. -/
inductive Stop
  /-- An exception; `none` stands for a null reference that was thrown. -/
  | thrown (obj : Option Ref)
  | failed (e : RunError)
  | stuck
  | outOfBudget
  deriving DecidableEq, Repr

/-- A call of a native method, with the heap as it was. -/
structure NativeCall where
  key : Text
  args : List Value
  heap : Array Object
  deriving DecidableEq, Repr

structure Meter where
  /-- How many blocks may be entered. -/
  budget : Nat := 20000
  blocks : Nat := 0
  insts : Nat := 0
  /-- The labels of the first blocks entered, the latest first. -/
  labels : List Text := []
  /-- The first calls of natives, the latest first. -/
  calls : List NativeCall := []
  /-- How many calls are kept. -/
  callLimit : Nat := 50
  deriving DecidableEq, Repr

namespace Meter

/-- How many labels are kept. -/
def maxLabels : Nat := 200

/-- Notes that a block is entered; `none` as the second part if the budget does not allow it. -/
def enter (m : Meter) (label : Text) : Meter × Bool :=
  let m := { m with blocks := m.blocks + 1 }
  if m.budget < m.blocks then (m, false)
  else if m.labels.length < maxLabels then ({ m with labels := label :: m.labels }, true)
  else (m, true)

def countInst (m : Meter) : Meter := { m with insts := m.insts + 1 }

def noteCall (m : Meter) (c : NativeCall) : Meter :=
  if m.calls.length < m.callLimit then { m with calls := c :: m.calls } else m

end Meter

structure State where
  env : Env
  heap : Array Object := #[]
  meter : Meter := {}
  deriving DecidableEq, Repr

/-- A computation of the machine. -/
abbrev RunM := ExceptT Stop (StateM State)

/-- A part that has to be there. -/
def need {α : Type} : Option α → RunM α
  | some a => pure a
  | none => throw .stuck

def fail {α : Type} (e : RunError) : RunM α := throw (.failed e)

def failIf (c : Prop) [Decidable c] (e : RunError) : RunM Unit := if c then fail e else pure ()

/-- Runs a computation and hands out how it ended, as a value or a stop. -/
def attempt {α : Type} (x : RunM α) : RunM (Except Stop α) :=
  tryCatch (Except.ok <$> x) fun e => pure (.error e)

/-! ## The heap -/

/-- Adds an object to the heap. -/
def alloc (o : Object) : RunM Ref :=
  modifyGet fun s => (s.heap.size, { s with heap := s.heap.push o })

def object (v : Value) : RunM (Ref × Object) := do
  let r ← need v.ref
  let o ← need (← get).heap[r]?
  return (r, o)

def setObject (r : Ref) (o : Object) : RunM Unit :=
  modify fun s => { s with heap := s.heap.setIfInBounds r o }

def arrayOf (v : Value) : RunM (Ref × Object × ArrayBody) := do
  let (r, o) ← object v
  let a ← need o.array
  return (r, o, a)

def throwNew {α : Type} (cls : Text) : RunM α := do
  let r ← alloc { cls := cls }
  throw (.thrown (some r))

/-- The interned string with a content. -/
def intern (t : Text) : RunM Ref := do
  match (← get).env.strings.lookup t with
  | some r => return r
  | none =>
    let r ← alloc { cls := stringClass, str := t }
    modify fun s => { s with env.strings := assign t r s.env.strings }
    return r

def RefLiteral.make : RefLiteral → RunM (Option Ref)
  | .null => pure none
  | .existing r => pure (some r)
  | .string t => do return some (← intern t)
  | .object cls => do return some (← alloc { cls := cls })

def Literal.make (l : Literal) : RunM Value := do
  let ref ← l.ref.make
  return ⟨l.i, l.f, ref, l.sym⟩

def isInstance (o : Object) (target : Text) : RunM Bool := do
  return (← get).env.classes.isSubclass o.cls target

def element (v : Value) (index : Int) : RunM Value := do
  let (_, _, a) ← arrayOf v
  need (a.get? index)

/-- Stores an element of an array as it is. -/
def setElement (v : Value) (index : Int) (e : Value) : RunM Unit := do
  let (r, o, a) ← arrayOf v
  let a ← need (a.set? index e)
  setObject r { o with array := some a }

end Bytelift.Machine
