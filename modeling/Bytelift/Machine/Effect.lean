import Bytelift.Machine.State

/-!
# What operations do

The operations of the machine on values, apart from where the operands come from and where the result
goes. Some compute a value, some check their operands and raise an exception, some read or write the
heap or the static fields.
-/

namespace Bytelift.Machine

open Ir (Op Ty)

/-! ## Computing -/

def compute (op : Op) (ty : Ty) (a b : Value) : RunM Value :=
  match binary op ty a b with
  | .ok v => pure v
  | .error .zeroDivisor => throwNew arithmeticClass
  | .error .undefined => fail (.undefinedOp op ty)

/-- Compares two operands by a predicate. References can only be compared for equality. -/
def compareBy (isRef : Bool) (p : Option Pred) (a b : Value) : RunM Value :=
  if isRef then
    match p with
    | some .eq => pure (.ofBool (a.ref = b.ref))
    | some .ne => pure (.ofBool (a.ref ≠ b.ref))
    | _ => fail .orderedRefs
  else pure (.ofBool (p.any fun p => holds p a.i b.i))

/-! ## Checking -/

def checkNull (v : Value) : RunM Unit :=
  if v.ref.isNone then throwNew nullPointerClass else pure ()

def checkDivZero (v : Value) : RunM Unit := if v.i = 0 then throwNew arithmeticClass else pure ()

/-- Checks that a length is not negative. -/
def checkNonNeg (v : Value) : RunM Unit :=
  if v.int32 < 0 then throwNew negativeSizeClass else pure ()

def checkBounds (arr index : Value) : RunM Unit :=
  if index.i < 0 then throwNew indexClass
  else do
    let (_, _, a) ← arrayOf arr
    if (a.length : Int) ≤ index.i.toInt then throwNew indexClass else pure ()

def checkCast (v : Value) (cls : Text) : RunM Unit :=
  if v.ref.isNone then pure ()
  else do
    let (_, o) ← object v
    let fits ← isInstance o cls
    if fits then pure () else throwNew castClass

def instanceOf (v : Value) (cls : Text) : RunM Value :=
  if v.ref.isNone then pure (.ofBool false)
  else do
    let (_, o) ← object v
    let fits ← isInstance o cls
    return .ofBool fits

/-! ## Arrays, fields and methods -/

/-- Allocates an array; `method` is the method that does so. -/
def allocArray (method cls : Text) (elem : Option Kind) (length : Value) : RunM Ref :=
  let n := length.int32.toInt
  if n < 0 then fail (.negativeLength method n)
  else alloc { cls := cls, array := some (ArrayBody.new elem n.toNat) }

/-- Sets all elements of an array. -/
def fillArray (arr v : Value) : RunM Unit := do
  let (r, o, a) ← arrayOf arr
  setObject r { o with array := some (a.fill v) }

def arrayLength (arr : Value) : RunM Value := do
  let (_, _, a) ← arrayOf arr
  return .ofInt (Int64.ofNat a.length)

def loadField (obj : Value) (key : Text) : RunM Value := do
  let (_, o) ← object obj
  return (o.fields.lookup key).getD {}

def storeField (obj : Value) (key : Text) (v : Value) : RunM Unit := do
  let (r, o) ← object obj
  setObject r { o with fields := assign key v o.fields }

def loadStatic (key : Text) : RunM Value := do return ((← get).env.statics.lookup key).getD {}

def storeStatic (key : Text) (v : Value) : RunM Unit :=
  modify fun s => { s with env.statics := assign key v s.env.statics }

def classOf (obj : Value) : RunM Text := do
  let (_, o) ← object obj
  return o.cls

/-- Looks the method of a symbol up on a class. An interface method can only be looked up on a class
that implements the interface. -/
def lookupMethod (isInterface : Bool) (sym cls : Text) : RunM Text := do
  match Text.cutAt (Text.byte '.') sym with
  | none => fail (.badSymbol sym)
  | some (owner, selector) =>
    let env := (← get).env
    match env.resolve? cls selector with
    | some key => return key
    | none =>
      if isInterface && !env.classes.isSubclass cls owner then throwNew classChangeClass
      else throwNew abstractMethodClass

end Bytelift.Machine
