import Bytelift.Lift.Alloc
import Bytelift.Lift.Call
import Bytelift.Lift.Cleanup
import Bytelift.Lift.Shuffle

/-!
# Lifting instructions

Each bytecode instruction pops its operands from the symbolic stack, appends IR instructions and
pushes its result. Instructions that can fault are preceded by checks, which carry the faults.
-/

namespace Bytelift.Lift

open Ir

def laneTy : Lane → Ty
  | .int => .i32
  | .long => .i64
  | .float => .f32
  | .double => .f64
  | .ref => .ref

def numTy (n : Num) : Ty := laneTy n.lane

def elemKind : Elem → Kind
  | .int => .int
  | .long => .long
  | .float => .float
  | .double => .double
  | .ref => .reference
  | .byte => .byte
  | .char => .char
  | .short => .short

def arithOp : ArithOp → Op
  | .add => .add
  | .sub => .sub
  | .mul => .mul
  | .div => .div
  | .rem => .rem
  | .neg => .neg

def bitOp : BitOp → Op
  | .shl => .shl
  | .shr => .shr
  | .ushr => .ushr
  | .and => .and
  | .or => .or
  | .xor => .xor

/-- Whether the second operand counts bits to shift by. -/
def isShift : BitOp → Bool
  | .shl | .shr | .ushr => true
  | _ => false

/-- The operation of a conversion with the types that it goes from and to. -/
def conversion : Conversion → Op × Ty × Ty
  | .i2l => (.sext, .i32, .i64)
  | .i2f => (.itof, .i32, .f32)
  | .i2d => (.itof, .i32, .f64)
  | .l2i => (.trunc, .i64, .i32)
  | .l2f => (.itof, .i64, .f32)
  | .l2d => (.itof, .i64, .f64)
  | .f2i => (.ftoi, .f32, .i32)
  | .f2l => (.ftoi, .f32, .i64)
  | .f2d => (.fext, .f32, .f64)
  | .d2i => (.ftoi, .f64, .i32)
  | .d2l => (.ftoi, .f64, .i64)
  | .d2f => (.ftrunc, .f64, .f32)
  | .i2b => (.i2b, .i32, .i32)
  | .i2c => (.i2c, .i32, .i32)
  | .i2s => (.i2s, .i32, .i32)

namespace Context

def localSlot (i : Instruction) : Slot := ⟨.local, i.localIndex⟩

def pushInt (cx : Context) (v : Int64) : LiftM Unit := do
  let c ← cx.constInt v
  push c .i32

def liftLoad (cx : Context) (i : Instruction) (lane : Lane) : LiftM Unit :=
  cx.emitPush { op := .loadSlot, ty := laneTy lane, slot := localSlot i }

def liftStore (cx : Context) (i : Instruction) (lane : Lane) : LiftM Unit := do
  let v ← popTy (laneTy lane)
  cx.store (localSlot i) v

def liftIncrement (cx : Context) (i : Instruction) : LiftM Unit := do
  let v ← cx.load (localSlot i) .i32
  let d ← cx.constInt (Int64.ofInt i.immediate)
  let sum ← cx.emit { op := .add, ty := .i32, args := [v, d] }
  cx.store (localSlot i) sum

def liftConstant (cx : Context) (i : Instruction) : LiftM Unit :=
  match cx.method.pool.entry i.poolIndex with
  | .error e => failAt i.bci (.poolOperand "ldc" e)
  | .ok c =>
    match c, i.op == .ldc2W with
    | .int v, false => cx.pushInt v
    | .float v, false => cx.emitPush { op := .const, ty := .f32, fimm := v }
    | .string t, false => do
      let v ← cx.emit { op := .constString, ty := .ref, sym := t }
      markNonNull v
      push v .ref
    | .long v, true => cx.emitPush { op := .const, ty := .i64, imm := v }
    | .double v, true => cx.emitPush { op := .const, ty := .f64, fimm := v }
    | .cls ref, _ => failAt i.bci (.classLiteral ref.name)
    | c, _ => failAt i.bci (.loadConstant i.op c.render)

/-- Pops an index and an array and checks both. -/
def popElement (cx : Context) : LiftM (ValueId × ValueId) := do
  let index ← popTy .i32
  let arr ← popTy .ref
  cx.checkNull arr
  cx.check .checkBounds [arr, index]
  return (arr, index)

def liftArrayLoad (cx : Context) (elem : Elem) : LiftM Unit := do
  let kind := elemKind elem
  let (arr, index) ← cx.popElement
  cx.emitPush
    { op := .loadElem, ty := Ty.ofKind kind, imm := Int64.ofNat kind.code, args := [arr, index] }

def liftArrayStore (cx : Context) (elem : Elem) : LiftM Unit := do
  let kind := elemKind elem
  let v ← popTy (Ty.ofKind kind)
  let (arr, index) ← cx.popElement
  let _ ← cx.emit { op := .storeElem, imm := Int64.ofNat kind.code, args := [arr, index, v] }

def liftShuffle (op : StackOp) : LiftM Unit := do
  match shuffle (fun (e : StackEntry) => e.ty.isWide) op (← get).cursor.stack with
  | some stack => modifyCursor fun c => { c with stack := stack }
  | none => failHere .underflow

/-- Pops two operands and pushes the value of an operation on them. -/
def liftBinary (cx : Context) (first second : Ty) (i : Inst) : LiftM Unit := do
  let b ← popTy second
  let a ← popTy first
  cx.emitPush { i with args := [a, b] }

/-- Checks the divisor of an operation, if the operation faults on zero. -/
def checkDivisor (cx : Context) (op : ArithOp) (num : Num) (v : ValueId) : LiftM Unit :=
  if (op = .div ∨ op = .rem) ∧ (num = .int ∨ num = .long) then cx.checkDivZero v else pure ()

def liftArith (cx : Context) (op : ArithOp) (num : Num) : LiftM Unit := do
  let ty := numTy num
  match op with
  | .neg =>
    let v ← popTy ty
    cx.emitPush { op := .neg, ty := ty, args := [v] }
  | _ =>
    let b ← popTy ty
    let a ← popTy ty
    cx.checkDivisor op num b
    cx.emitPush { op := arithOp op, ty := ty, args := [a, b] }

def liftBits (cx : Context) (op : BitOp) (width : Width) : LiftM Unit :=
  let ty : Ty := match width with
    | .int => .i32
    | .long => .i64
  cx.liftBinary ty (if isShift op then .i32 else ty) { op := bitOp op, ty := ty }

def liftConversion (cx : Context) (c : Conversion) : LiftM Unit := do
  let v ← popTy (conversion c).2.1
  cx.emitPush { op := (conversion c).1, ty := (conversion c).2.2, args := [v] }

def liftBranch (cx : Context) (i : Instruction) (p : Pred) (a b : ValueId) : LiftM Unit := do
  let cond ← cx.emit { op := .icmp, ty := .i1, imm := predicateCode p, args := [a, b] }
  let taken ← cx.edge (i.targets.headD 0)
  let fall ← cx.edge i.next
  cx.spill
  cx.terminate (.condBr cond taken fall)

/-- Branches on a comparison of the two values on top of the stack. -/
def liftCompare (cx : Context) (i : Instruction) (p : Pred) (ty : Ty) : LiftM Unit := do
  let b ← popTy ty
  let a ← popTy ty
  cx.liftBranch i p a b

def liftGoto (cx : Context) (i : Instruction) : LiftM Unit := do
  let target ← cx.edge (i.targets.headD 0)
  cx.spill
  cx.terminate (.goto target)

def liftSwitch (cx : Context) (table : SwitchTable) : LiftM Unit := do
  let key ← popTy .i32
  let cases ← table.cases.mapM fun (k, target) => do
    let b ← cx.edge target
    return (⟨k, b⟩ : SwitchCase)
  let fallback ← cx.edge table.fallback
  cx.spill
  cx.terminate (.switch key fallback cases)

def liftValueReturn (cx : Context) (op : Opcode) (lane : Lane) : LiftM Unit := do
  let v ← popTy (laneTy lane)
  refuseHereIf (laneTy lane ≠ cx.result) (.returnType op cx.result)
  cx.exitMethod v

def liftVoidReturn (cx : Context) (op : Opcode) : LiftM Unit := do
  refuseHereIf (cx.result ≠ .void) (.returnType op cx.result)
  cx.exitMethod noValue

/-- The field in the constant pool that an instruction names, with its type. -/
def poolField (cx : Context) (i : Instruction) : LiftM (FieldRef × Ty) :=
  match cx.method.pool.getField i.poolIndex with
  | .error e => failAt i.bci (.poolOperand "field" e)
  | .ok ref =>
    match FieldType.parse ref.desc with
    | .error e => failAt i.bci (.fieldDescriptor e)
    | .ok ft => pure (ref, Ty.ofKind ft.kind)

def liftField (cx : Context) (i : Instruction) (op : FieldOp) : LiftM Unit := do
  let (ref, ty) ← cx.poolField i
  match op with
  | .getStatic => cx.emitPush { op := .loadStatic, ty := ty, sym := ref.key }
  | .putStatic =>
    let v ← popTy ty
    let _ ← cx.emit { op := .storeStatic, sym := ref.key, args := [v] }
  | .getField =>
    let obj ← popTy .ref
    cx.checkNull obj
    cx.emitPush { op := .loadField, ty := ty, sym := ref.key, args := [obj] }
  | .putField =>
    let v ← popTy ty
    let obj ← popTy .ref
    cx.checkNull obj
    let _ ← cx.emit { op := .storeField, sym := ref.key, args := [obj, v] }

def lift (cx : Context) (i : Instruction) : LiftM Unit := do
  match i.op with
  | .nop => pure ()
  | .aconstNull => cx.emitPush { op := .constNull, ty := .ref }
  | .iconst n => cx.pushInt (Int64.ofInt ((n.val : Int) - 1))
  | .lconst n => cx.emitPush { op := .const, ty := .i64, imm := Int64.ofNat n.val }
  | .fconst n => cx.emitPush { op := .const, ty := .f32, fimm := Double.ofInt n.val }
  | .dconst n => cx.emitPush { op := .const, ty := .f64, fimm := Double.ofInt n.val }
  | .bipush | .sipush => cx.pushInt (Int64.ofInt i.immediate)
  | .ldc | .ldcW | .ldc2W => cx.liftConstant i
  | .load lane | .loadAt lane _ => cx.liftLoad i lane
  | .store lane | .storeAt lane _ => cx.liftStore i lane
  | .iinc => cx.liftIncrement i
  | .arrayLoad elem => cx.liftArrayLoad elem
  | .arrayStore elem => cx.liftArrayStore elem
  | .stack op => liftShuffle op
  | .arith op num => cx.liftArith op num
  | .bits op width => cx.liftBits op width
  | .convert c => cx.liftConversion c
  | .lcmp => cx.liftBinary .i64 .i64 { op := .cmp, ty := .i32 }
  | .fcmp double greater =>
    let ty : Ty := if double then .f64 else .f32
    cx.liftBinary ty ty { op := .fcmp, ty := .i32, imm := if greater then 1 else -1 }
  | .ifZero p =>
    let v ← popTy .i32
    let z ← cx.constInt 0
    cx.liftBranch i p v z
  | .ifInt p => cx.liftCompare i p .i32
  | .ifRef equal => cx.liftCompare i (if equal then .eq else .ne) .ref
  | .ifNull isNull =>
    let v ← popTy .ref
    let null ← cx.emit { op := .constNull, ty := .ref }
    cx.liftBranch i (if isNull then .eq else .ne) v null
  | .goto | .gotoW => cx.liftGoto i
  | .tableswitch | .lookupswitch =>
    match i.operand with
    | .switch table => cx.liftSwitch table
    | _ => failAt (-1) .internal
  | .valueReturn lane => cx.liftValueReturn i.op lane
  | .voidReturn => cx.liftVoidReturn i.op
  | .field op => cx.liftField i op
  | .invoke op => cx.liftInvoke i op
  | .new => cx.liftNew i
  | .newarray => cx.liftNewArray i
  | .anewarray => cx.liftRefArray i
  | .multianewarray => cx.liftMultiArray i
  | .arraylength =>
    let arr ← popTy .ref
    cx.checkNull arr
    cx.emitPush { op := .arrayLength, ty := .i32, args := [arr] }
  | .athrow =>
    let v ← popTy .ref
    cx.terminate (.throw v noBlock)
  | .checkcast =>
    let cls ← cx.poolClass "checkcast" i
    let v ← popTy .ref
    let _ ← cx.emit { op := .checkCast, sym := cls.name, args := [v] }
    push v .ref
  | .instanceof =>
    let cls ← cx.poolClass "instanceof" i
    let v ← popTy .ref
    cx.emitPush { op := .instanceOf, ty := .i32, sym := cls.name, args := [v] }
  | .endfinally => cx.endCleanup
  | .jsr | .jsrW | .ret => failAt i.bci (.subroutine i.op)
  | .monitorenter | .monitorexit => failAt i.bci (.monitor i.op)
  | .wide | .breakpoint | .undefined _ => failAt i.bci (.opcode i.op)

end Context
end Bytelift.Lift
