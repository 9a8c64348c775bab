import Bytelift.Lift.State

/-!
# Allocations

A new object is followed by stores of the zero of each of its fields, a new array by a fill with the
zero of its elements. An array of several dimensions is built level by level: all lengths are checked
before anything is allocated, and each inner level is made by a counted loop over its parent.
-/

namespace Bytelift.Lift

open Ir

/-- The class in the constant pool that an instruction names; `use` names the instruction. -/
def Context.poolClass (cx : Context) (use : Text) (i : Instruction) : LiftM ClassRef :=
  match cx.method.pool.getClass i.poolIndex with
  | .ok c => pure c
  | .error e => failAt i.bci (.poolOperand use e)

/-- The descriptor of a class by its name. The name of an array class is a descriptor already. -/
def classDescriptor (name : Text) : Text :=
  if (Text.ofString "[").isPrefixOf name then name else "L" ++ name ++ ";"

namespace Context

def zeroField (cx : Context) (bci : Int) (obj : ValueId) (f : FieldInfo) : LiftM Unit :=
  match FieldType.parse f.desc with
  | .error e => failAt bci (.layoutField f.key e)
  | .ok ft => do
    let z ← cx.zero (Ty.ofKind ft.kind)
    let _ ← cx.emit { op := .storeField, sym := f.key, args := [obj, z] }

def liftNew (cx : Context) (i : Instruction) : LiftM Unit := do
  let cls ← cx.poolClass "new" i
  refuseIf ((Text.ofString "[").isPrefixOf cls.name) i.bci (.newArrayClass cls.name)
  let obj ← cx.emit
    { op := .allocObject, ty := .ref, sym := cls.name, alloc := some { kind := .object, cls := cls.name } }
  markNonNull obj
  cls.fields.forM (cx.zeroField i.bci obj)
  push obj .ref

def elementType (desc : Text) : LiftM FieldType :=
  match FieldType.parse desc with
  | .error e => failHere (.arrayType e)
  | .ok ft =>
    match ft.element with
    | none => failHere (.notArray desc)
    | some (.error e) => failHere (.arrayType e)
    | some (.ok elem) => pure elem

/-- The allocation of an array of a class with elements of a type. -/
def arraySite (desc : Text) (elem : FieldType) (length : ValueId) : AllocSite :=
  if elem.kind = .reference then
    { kind := .objectArray, cls := desc, elem := some elem.kind, elemClass := elem.desc, length := length }
  else { kind := .primitiveArray, cls := desc, elem := some elem.kind, length := length }

/-- Allocates and fills an array, whose length has been checked. -/
def allocArray (cx : Context) (desc : Text) (length : ValueId) : LiftM ValueId := do
  let elem ← elementType desc
  let arr ← cx.emit
    { op := .allocArray, ty := .ref, sym := desc, args := [length]
      alloc := some (arraySite desc elem length) }
  markNonNull arr
  let z ← cx.zero (Ty.ofKind elem.kind)
  let _ ← cx.emit { op := .arrayFill, imm := Int64.ofNat elem.kind.code, args := [arr, z] }
  return arr

/-- Pops a length, checks it and pushes an array of the given class. -/
def liftArray (cx : Context) (desc : Text) : LiftM Unit := do
  let length ← popTy .i32
  cx.checkNonNeg length
  let arr ← cx.allocArray desc length
  push arr .ref

def liftNewArray (cx : Context) (i : Instruction) : LiftM Unit :=
  match Kind.ofArrayTag? i.immediate with
  | none => failAt i.bci (.arrayTag i.immediate)
  | some kind => cx.liftArray ("[" ++ kind.descriptor)

def liftRefArray (cx : Context) (i : Instruction) : LiftM Unit := do
  let cls ← cx.poolClass "anewarray" i
  cx.liftArray ("[" ++ classDescriptor cls.name)

/-! ## Several dimensions -/

/-- One level of an array of several dimensions: the class of its arrays, and the temporaries for
their length, for the current array and for the index of the loop over it. -/
structure Level where
  number : Nat
  desc : Text
  length : Slot
  array : Slot
  index : Slot
  deriving DecidableEq, Repr

/-- Ends the IR block with a jump and goes on at its target. -/
def jumpTo (target : BlockId) : LiftM Unit := do
  flushPending
  let c := (← get).cursor
  setTerm c.block (.goto target)
  modifyCursor fun c => { c with block := target }

def allocLevel (cx : Context) (level : Level) : LiftM Unit := do
  let n ← cx.load level.length .i32
  let arr ← cx.allocArray level.desc n
  cx.store level.array arr

def Level.label (level : Level) (bci : Int) (part : Text) : Text :=
  bciLabel bci ("_marr" ++ Text.ofNat level.number ++ part)

def startLoop (cx : Context) (level : Level) (head : BlockId) : LiftM Unit := do
  let zero ← cx.constInt 0
  cx.store level.index zero
  jumpTo head

/-- Goes on to the body of the loop over a level or to its exit. -/
def testLoop (cx : Context) (level : Level) (body exit : BlockId) : LiftM Unit := do
  let i ← cx.load level.index .i32
  let bound ← cx.load level.length .i32
  let more ← cx.emit { op := .icmp, ty := .i1, imm := predicateCode .lt, args := [i, bound] }
  setTerm (← get).cursor.block (.condBr more body exit)
  modifyCursor fun c => { c with block := body }

/-- Stores a built array of the next level, and goes back to the head of the loop over a level. -/
def closeLoop (cx : Context) (level inner : Level) (head exit : BlockId) : LiftM Unit := do
  let parent ← cx.load level.array .ref
  let i ← cx.load level.index .i32
  let child ← cx.load inner.array .ref
  let _ ← cx.emit
    { op := .storeElem, imm := Int64.ofNat Kind.reference.code, args := [parent, i, child] }
  let one ← cx.constInt 1
  let next ← cx.emit { op := .add, ty := .i32, args := [i, one] }
  cx.store level.index next
  jumpTo head
  modifyCursor fun c => { c with block := exit }

/-- Builds the arrays of the given levels, the outermost first. -/
def buildLevels (cx : Context) (bci : Int) : List Level → LiftM Unit
  | [] => pure ()
  | [level] => cx.allocLevel level
  | level :: inner :: rest => do
    cx.allocLevel level
    let head ← newBlock (level.label bci "_head") bci .loop
    let body ← newBlock (level.label bci "_body") bci .loop
    let exit ← newBlock (level.label bci "_exit") bci .loop
    cx.startLoop level head
    cx.testLoop level body exit
    buildLevels cx bci (inner :: rest)
    cx.closeLoop level inner head exit

def levelTemp (bci : Int) (number : Nat) (part : Text) : Text :=
  "marr_" ++ Text.ofInt bci ++ part ++ Text.ofNat number

def newLevel (cx : Context) (bci : Int) (desc : Text) (number : Nat) (length : ValueId) :
    LiftM Level := do
  let lengthSlot ← temp (levelTemp bci number "_n")
  let array ← temp (levelTemp bci number "_a")
  let index ← temp (levelTemp bci number "_i")
  cx.store lengthSlot length
  return ⟨number, desc.drop number, lengthSlot, array, index⟩

/-- Whether a class is one of arrays of at least the given number of dimensions, which is not zero. -/
def hasDimensions (desc : Text) (dims : Nat) : Bool :=
  match FieldType.parse desc with
  | .ok ft => 1 ≤ dims && dims ≤ ft.dims
  | .error _ => false

/-- Builds an array of several dimensions with the given lengths, the outermost first. -/
def allocLevels (cx : Context) (bci : Int) (desc : Text) (lengths : List ValueId) : LiftM Unit := do
  let levels ← lengths.zipIdx.mapM fun (length, n) => cx.newLevel bci desc n length
  let saved ← stackShape
  cx.spill
  cx.buildLevels bci levels
  let outermost ← require levels.head?
  let result ← cx.load outermost.array .ref
  cx.reload saved
  push result .ref

def liftMultiArray (cx : Context) (i : Instruction) : LiftM Unit := do
  let cls ← cx.poolClass "multianewarray" i
  let dims := i.immediate.toNat
  refuseIf (!hasDimensions cls.name dims) i.bci (.dimensions cls.name i.immediate)
  let lengths ← popAll (List.replicate dims .i32)
  lengths.forM cx.checkNonNeg
  match lengths with
  | [length] =>
    let arr ← cx.allocArray cls.name length
    push arr .ref
  | _ => cx.allocLevels i.bci cls.name lengths

end Context
end Bytelift.Lift
