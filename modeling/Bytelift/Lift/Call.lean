import Bytelift.Lift.State

/-!
# Calls

A static or special call names its callee. A virtual or interface call first looks its callee up on
the class of the receiver. Every call may unwind.
-/

namespace Bytelift.Lift

open Ir

/-- How a call finds its callee; `none` for calls that are not supported. -/
def dispatch? : InvokeOp → Option Dispatch
  | .static => some .static
  | .special => some .special
  | .virtual => some .virtual
  | .interface => some .interface
  | .dynamic => none

/-- Whether a call may name a method of the given kind: interface calls go to interface methods and
virtual calls to the others. -/
def Dispatch.fits (d : Dispatch) (isInterface : Bool) : Bool :=
  d.isBound || (d = .interface) == isInterface

namespace Context

/-- Looks the callee up on the class of the receiver; nothing for calls that name their callee. -/
def lookup (cx : Context) (d : Dispatch) (ref : MethodRef) (receiver : ValueId) :
    LiftM (List ValueId) :=
  if d.isBound then pure []
  else do
    let klass ← cx.emit { op := .loadKlass, ty := .ref, args := [receiver] }
    let op : Op := if d = .interface then .lookupInterface else .lookupVirtual
    let slot ← cx.emit { op := op, ty := .fn, sym := ref.key, args := [klass] }
    return [slot]

/-- The receiver of a call and the callee that was looked up, if the call has them. -/
def receiver (cx : Context) (d : Dispatch) (ref : MethodRef) :
    LiftM (List ValueId × List ValueId) :=
  if d = .static then pure ([], [])
  else do
    let receiver ← popTy .ref
    cx.checkNull receiver
    let slot ← cx.lookup d ref receiver
    return ([receiver], slot)

def calleeType (i : Instruction) (ref : MethodRef) : LiftM MethodType :=
  match MethodType.parse ref.desc with
  | .ok mt => pure mt
  | .error e => failAt i.bci (.invokeDescriptor e)

def liftCall (cx : Context) (i : Instruction) (d : Dispatch) (ref : MethodRef) : LiftM Unit := do
  let mt ← calleeType i ref
  refuseIf (!Dispatch.fits d ref.isInterface) i.bci (.invokeOwner i.op ref.isInterface ref.key)
  let args ← popAll (mt.params.map fun p => Ty.ofKind p.kind)
  let (receiver, slot) ← cx.receiver d ref
  let site : CallSite :=
    { dispatch := d, method := ref, slot := slot.headD noValue, receiver := receiver.headD noValue
      args := args }
  let ty := Ty.ofKind mt.result.kind
  let v ← cx.emit
    { op := .call, ty := ty, sym := ref.key, args := slot ++ receiver ++ args, call := some site }
  if ty ≠ .void then push v ty else pure ()

def liftInvoke (cx : Context) (i : Instruction) (op : InvokeOp) : LiftM Unit :=
  match dispatch? op with
  | none => failAt i.bci .dynamicInvoke
  | some d =>
    match cx.method.pool.getMethod i.poolIndex with
    | .error e => failAt i.bci (.poolOperand "invoke" e)
    | .ok ref => cx.liftCall i d ref

end Context
end Bytelift.Lift
