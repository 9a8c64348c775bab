import Bytelift.Ir.Op
import Bytelift.Machine.Heap

/-!
# Arithmetic

Integers wrap around at their width, and division goes toward zero. An i32 operation reads the low 32
bits of its operands. Shifts take the low bits of the count. Results of type f32 are rounded to single
precision.
-/

namespace Bytelift.Machine

open Ir (Op Ty)

/-- Why an operation has no result. -/
inductive ArithFault
  | zeroDivisor
  /-- The operation does not exist for the type. -/
  | undefined
  deriving DecidableEq, Repr

/-- An operation on 32-bit integers; `none` for a division by zero. -/
def intOp (op : Op) (x y : Int32) : Option Int32 :=
  match op with
  | .add => some (x + y)
  | .sub => some (x - y)
  | .mul => some (x * y)
  | .div => if y = 0 then none else some (x / y)
  | .rem => if y = 0 then none else some (x % y)
  | .shl => some (x <<< (y &&& 31))
  | .shr => some (x >>> (y &&& 31))
  | .ushr => some (x.toUInt32 >>> (y.toUInt32 &&& 31)).toInt32
  | .and => some (x &&& y)
  | .or => some (x ||| y)
  | .xor => some (x ^^^ y)
  | _ => some 0

/-- An operation on 64-bit integers; `none` for a division by zero. -/
def longOp (op : Op) (x y : Int64) : Option Int64 :=
  match op with
  | .add => some (x + y)
  | .sub => some (x - y)
  | .mul => some (x * y)
  | .div => if y = 0 then none else some (x / y)
  | .rem => if y = 0 then none else some (x % y)
  | .shl => some (x <<< (y &&& 63))
  | .shr => some (x >>> (y &&& 63))
  | .ushr => some (x.toUInt64 >>> (y.toUInt64 &&& 63)).toInt64
  | .and => some (x &&& y)
  | .or => some (x ||| y)
  | .xor => some (x ^^^ y)
  | _ => some 0

/-- An operation on floating-point numbers; `none` if there is none. -/
def floatOp (op : Op) (x y : Double) : Option Double :=
  match op with
  | .add => some (x.add y)
  | .sub => some (x.sub y)
  | .mul => some (x.mul y)
  | .div => some (x.div y)
  | .rem => some (x.rem y)
  | _ => none

def binary (op : Op) (ty : Ty) (a b : Value) : Except ArithFault Value :=
  match ty with
  | .i32 =>
    match intOp op a.int32 b.int32 with
    | some r => .ok (.ofInt r.toInt64)
    | none => .error .zeroDivisor
  | .i64 =>
    match longOp op a.i b.i with
    | some r => .ok (.ofInt r)
    | none => .error .zeroDivisor
  | .f32 =>
    match floatOp op a.f b.f with
    | some r => .ok (.ofDouble r.toSingle)
    | none => .error .undefined
  | .f64 =>
    match floatOp op a.f b.f with
    | some r => .ok (.ofDouble r)
    | none => .error .undefined
  | _ => .error .undefined

def negate (ty : Ty) (a : Value) : Value :=
  match ty with
  | .i32 => .ofInt (-a.int32).toInt64
  | .i64 => .ofInt (-a.i)
  | _ => .ofDouble a.f.neg

def convert (op : Op) (ty : Ty) (a : Value) : Value :=
  match op with
  | .sext | .trunc => .ofInt a.int32.toInt64
  | .i2b => .ofInt a.i.toInt8.toInt64
  | .i2c => .ofInt (Int64.ofNat a.i.toUInt64.toUInt16.toNat)
  | .i2s => .ofInt a.i.toInt16.toInt64
  | .itof =>
    .ofDouble (if ty = .f32 then Double.singleOfInt a.i.toInt else Double.ofInt a.i.toInt)
  | .ftoi => .ofInt (Int64.ofInt (a.f.saturate (if ty = .i64 then 64 else 32)))
  | .fext => .ofDouble a.f
  | .ftrunc => .ofDouble a.f.toSingle
  | _ => {}

/-- `-1`, `0` or `1` as the first of two values is less, the same or greater. -/
def threeWay (less greater : Bool) : Int64 := if less then -1 else if greater then 1 else 0

def compareInts (a b : Int64) : Int64 := threeWay (a < b) (b < a)

/-- The three-way comparison of floating-point numbers; `nan` is the answer for a NaN. -/
def compareFloats (nan : Int64) (a b : Double) : Int64 :=
  if a.isNaN || b.isNaN then nan else threeWay (a.lt b) (b.lt a)

def holds (p : Pred) (a b : Int64) : Bool :=
  match p with
  | .eq => a == b
  | .ne => a != b
  | .lt => a < b
  | .ge => b ≤ a
  | .gt => b < a
  | .le => a ≤ b

end Bytelift.Machine
