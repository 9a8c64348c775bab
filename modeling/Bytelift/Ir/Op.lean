import Bytelift.Code.Kind
import Bytelift.Code.Opcode

/-!
# IR operations and types

The closed vocabularies of the intermediate representation: the types of values, the operations, the
kinds of blocks, allocation sites and calls. Each is numbered from zero in the order in which it is
listed here, and each has a name in listings.
-/

namespace Bytelift.Ir

/-- The type of an IR value. -/
inductive Ty
  | void
  | i1
  | i32
  | i64
  | f32
  | f64
  | ref
  | fn
  | token
  | unknown
  deriving DecidableEq, Repr, Inhabited

namespace Ty

def all : List Ty := [.void, .i1, .i32, .i64, .f32, .f64, .ref, .fn, .token]

def name : Ty → Text
  | .void => "void"
  | .i1 => "i1"
  | .i32 => "i32"
  | .i64 => "i64"
  | .f32 => "f32"
  | .f64 => "f64"
  | .ref => "ref"
  | .fn => "fn"
  | .token => "token"
  | .unknown => "?"

/-- Whether a value of the type counts as two words on the operand stack. -/
def isWide : Ty → Bool
  | .i64 | .f64 => true
  | _ => false

def ofCode (n : Nat) : Ty := (all[n]?).getD .unknown
def ofName (t : Text) : Ty := (all.find? fun ty => ty.name == t).getD .unknown

/-- The type of values of a kind. Small integers are widened. -/
def ofKind : Kind → Ty
  | .void => .void
  | .long => .i64
  | .float => .f32
  | .double => .f64
  | .reference => .ref
  | .boolean | .byte | .char | .short | .int => .i32

end Ty

inductive Op
  | param
  | const
  | constNull
  | constString
  | loadSlot
  | storeSlot
  | add
  | sub
  | mul
  | div
  | rem
  | neg
  | shl
  | shr
  | ushr
  | and
  | or
  | xor
  /-- Widens an i32. -/
  | sext
  /-- Narrows to an i32. -/
  | trunc
  | i2b
  | i2c
  | i2s
  | itof
  /-- Cuts to an integer and keeps within the bounds of the type. -/
  | ftoi
  | fext
  | ftrunc
  /-- Three-way comparison of integers. -/
  | cmp
  /-- Three-way comparison of floats; the immediate is the answer for a NaN. -/
  | fcmp
  /-- Comparison by a predicate, whose number is the immediate. -/
  | icmp
  | checkNull
  | checkBounds
  | checkDivZero
  | checkCast
  | checkNonNeg
  | allocObject
  | allocArray
  | arrayFill
  | arrayLength
  | loadElem
  | storeElem
  | loadField
  | storeField
  | loadStatic
  | storeStatic
  | loadKlass
  | lookupVirtual
  | lookupInterface
  | call
  | instanceOf
  | landingpad
  /-- The exception that a landingpad caught. -/
  | exception
  /-- A number that stands for no operation. -/
  | unknown (code : UInt8)
  deriving DecidableEq, Repr

namespace Op

/-- The operations in the order of their numbers. -/
def all : List Op :=
  [.param, .const, .constNull, .constString, .loadSlot, .storeSlot, .add, .sub, .mul, .div, .rem,
    .neg, .shl, .shr, .ushr, .and, .or, .xor, .sext, .trunc, .i2b, .i2c, .i2s, .itof, .ftoi, .fext,
    .ftrunc, .cmp, .fcmp, .icmp, .checkNull, .checkBounds, .checkDivZero, .checkCast, .checkNonNeg,
    .allocObject, .allocArray, .arrayFill, .arrayLength, .loadElem, .storeElem, .loadField,
    .storeField, .loadStatic, .storeStatic, .loadKlass, .lookupVirtual, .lookupInterface, .call,
    .instanceOf, .landingpad, .exception]

def ofCode (b : UInt8) : Op := (all[b.toNat]?).getD (.unknown b)

def name : Op → Text
  | .param => "param"
  | .const => "const"
  | .constNull => "const_null"
  | .constString => "const_string"
  | .loadSlot => "load_slot"
  | .storeSlot => "store_slot"
  | .add => "add"
  | .sub => "sub"
  | .mul => "mul"
  | .div => "div"
  | .rem => "rem"
  | .neg => "neg"
  | .shl => "shl"
  | .shr => "shr"
  | .ushr => "ushr"
  | .and => "and"
  | .or => "or"
  | .xor => "xor"
  | .sext => "sext"
  | .trunc => "trunc"
  | .i2b => "i2b"
  | .i2c => "i2c"
  | .i2s => "i2s"
  | .itof => "itof"
  | .ftoi => "ftoi"
  | .fext => "fext"
  | .ftrunc => "ftrunc"
  | .cmp => "cmp"
  | .fcmp => "fcmp"
  | .icmp => "icmp"
  | .checkNull => "check_null"
  | .checkBounds => "check_bounds"
  | .checkDivZero => "check_divzero"
  | .checkCast => "check_cast"
  | .checkNonNeg => "check_nonneg"
  | .allocObject => "alloc_object"
  | .allocArray => "alloc_array"
  | .arrayFill => "array_fill"
  | .arrayLength => "array_length"
  | .loadElem => "load_elem"
  | .storeElem => "store_elem"
  | .loadField => "load_field"
  | .storeField => "store_field"
  | .loadStatic => "load_static"
  | .storeStatic => "store_static"
  | .loadKlass => "load_klass"
  | .lookupVirtual => "lookup_virtual"
  | .lookupInterface => "lookup_interface"
  | .call => "call"
  | .instanceOf => "instanceof"
  | .landingpad => "landingpad"
  | .exception => "exception"
  | .unknown b => "op(" ++ Text.ofNat b.toNat ++ ")"

/-- The operation with a name; every other name stands for the first unused number. -/
def ofName (t : Text) : Op := (all.find? fun op => op.name == t).getD (.unknown all.length.toUInt8)

/-- Whether executing the operation can raise an exception. -/
def mayThrow : Op → Bool
  | .checkNull | .checkBounds | .checkDivZero | .checkCast | .checkNonNeg | .lookupVirtual
  | .lookupInterface | .call => true
  | _ => false

end Op

def predicate? (n : Int) : Option Pred := if 0 ≤ n then Pred.all[n.toNat]? else none

def predicateCode (p : Pred) : Int64 := Int64.ofNat (Pred.all.idxOf p)

def predicateName (n : Int) : Text := ((predicate? n).map Pred.name).getD "?"

/-- Why a block exists. -/
inductive BlockKind
  /-- Lowered bytecode. -/
  | code
  /-- Stores the parameters before bci 0. -/
  | entry
  /-- The normal path behind an instruction that may throw. -/
  | continue
  /-- An unwind destination. -/
  | landingpad
  /-- A catch test or a cleanup step of a landingpad. -/
  | dispatch
  /-- Passes on an exception that nothing caught. -/
  | resume
  /-- Routes an exit of a region through its cleanup code. -/
  | leave
  /-- The shared return behind cleanup code. -/
  | return
  /-- Builds arrays of several dimensions. -/
  | loop
  | unknown
  deriving DecidableEq, Repr

namespace BlockKind

def all : List BlockKind :=
  [.code, .entry, .continue, .landingpad, .dispatch, .resume, .leave, .return, .loop]

def name : BlockKind → Text
  | .code => "code"
  | .entry => "entry"
  | .continue => "continue"
  | .landingpad => "landingpad"
  | .dispatch => "dispatch"
  | .resume => "resume"
  | .leave => "leave"
  | .return => "return"
  | .loop => "loop"
  | .unknown => "?"

def ofCode (n : Nat) : BlockKind := (all[n]?).getD .unknown
def ofName (t : Text) : BlockKind := (all.find? fun k => k.name == t).getD .unknown

end BlockKind

inductive AllocKind
  | object
  | primitiveArray
  | objectArray
  deriving DecidableEq, Repr

namespace AllocKind

def name : AllocKind → Text
  | .object => "object"
  | .primitiveArray => "primitive_array"
  | .objectArray => "object_array"

def ofCode (n : Nat) : AllocKind :=
  match n with
  | 0 => .object
  | 1 => .primitiveArray
  | _ => .objectArray

def ofName (t : Text) : AllocKind :=
  ([object, primitiveArray].find? fun k => k.name == t).getD .objectArray

end AllocKind

/-- How a call finds its callee. -/
inductive Dispatch
  | static
  | special
  | virtual
  | interface
  deriving DecidableEq, Repr

namespace Dispatch

def name : Dispatch → Text
  | .static => "static"
  | .special => "special"
  | .virtual => "virtual"
  | .interface => "interface"

/-- Whether the callee is fixed by the call itself. -/
def isBound : Dispatch → Bool
  | .static | .special => true
  | _ => false

def ofCode (n : Nat) : Dispatch :=
  match n with
  | 0 => .static
  | 1 => .special
  | 2 => .virtual
  | _ => .interface

def ofName (t : Text) : Dispatch :=
  ([static, special, virtual].find? fun k => k.name == t).getD .interface

end Dispatch
end Bytelift.Ir
