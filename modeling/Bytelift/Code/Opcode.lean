import Bytelift.Text

/-!
# Opcodes

The opcodes of the stack machine, grouped by what they do: a load is one constructor that carries the
kind of value it loads, an arithmetic opcode carries its operation and the kind of its operands.
`Opcode.all` lists the defined ones in the order of their bytes, from `nop` at zero to `endfinally`,
which ends cleanup code. Every other byte is `undefined`.

`Opcode.encoding` says how the operands of an opcode are laid out behind its byte. The predicates at
the end classify opcodes by their effect on control.
-/

namespace Bytelift

/-- The kinds of values that typed loads, stores and returns move. -/
inductive Lane
  | int
  | long
  | float
  | double
  | ref
  deriving DecidableEq, Repr

/-- The kinds of numbers that arithmetic works on. -/
inductive Num
  | int
  | long
  | float
  | double
  deriving DecidableEq, Repr

/-- The widths of integers that shifts and bitwise operations work on. -/
inductive Width
  | int
  | long
  deriving DecidableEq, Repr

/-- The kinds of array elements that array loads and stores move. -/
inductive Elem
  | int
  | long
  | float
  | double
  | ref
  | byte
  | char
  | short
  deriving DecidableEq, Repr

inductive ArithOp
  | add
  | sub
  | mul
  | div
  | rem
  | neg
  deriving DecidableEq, Repr

/-- Shifts and bitwise operations. -/
inductive BitOp
  | shl
  | shr
  | ushr
  | and
  | or
  | xor
  deriving DecidableEq, Repr

/-- Comparisons of integers or references. -/
inductive Pred
  | eq
  | ne
  | lt
  | ge
  | gt
  | le
  deriving DecidableEq, Repr

/-- Conversions between kinds of numbers. -/
inductive Conversion
  | i2l
  | i2f
  | i2d
  | l2i
  | l2f
  | l2d
  | f2i
  | f2l
  | f2d
  | d2i
  | d2l
  | d2f
  | i2b
  | i2c
  | i2s
  deriving DecidableEq, Repr

/-- Rearrangements of the operand stack. -/
inductive StackOp
  | pop
  | pop2
  | dup
  | dupX1
  | dupX2
  | dup2
  | dup2X1
  | dup2X2
  | swap
  deriving DecidableEq, Repr

inductive FieldOp
  | getStatic
  | putStatic
  | getField
  | putField
  deriving DecidableEq, Repr

/-- Forms of a call. -/
inductive InvokeOp
  | virtual
  | special
  | static
  | interface
  | dynamic
  deriving DecidableEq, Repr

/-- An opcode, or a byte that stands for none. -/
inductive Opcode
  | nop
  | aconstNull
  /-- Pushes the int `n - 1`. -/
  | iconst (n : Fin 7)
  | lconst (n : Fin 2)
  | fconst (n : Fin 3)
  | dconst (n : Fin 2)
  | bipush
  | sipush
  | ldc
  | ldcW
  | ldc2W
  | load (lane : Lane)
  | loadAt (lane : Lane) (index : Fin 4)
  | arrayLoad (elem : Elem)
  | store (lane : Lane)
  | storeAt (lane : Lane) (index : Fin 4)
  | arrayStore (elem : Elem)
  | stack (op : StackOp)
  | arith (op : ArithOp) (num : Num)
  | bits (op : BitOp) (width : Width)
  | iinc
  | convert (c : Conversion)
  | lcmp
  /-- Compares two floats, or two doubles; a NaN gives 1 if `greater`, else -1. -/
  | fcmp (double : Bool) (greater : Bool)
  | ifZero (p : Pred)
  | ifInt (p : Pred)
  | ifRef (equal : Bool)
  | goto
  | jsr
  | ret
  | tableswitch
  | lookupswitch
  | valueReturn (lane : Lane)
  | voidReturn
  | field (op : FieldOp)
  | invoke (op : InvokeOp)
  | new
  | newarray
  | anewarray
  | arraylength
  | athrow
  | checkcast
  | instanceof
  | monitorenter
  | monitorexit
  | wide
  | multianewarray
  | ifNull (isNull : Bool)
  | gotoW
  | jsrW
  | breakpoint
  | endfinally
  | undefined (byte : UInt8)
  deriving DecidableEq, Repr

/-! ## Bytes -/

namespace Lane

def all : List Lane := [.int, .long, .float, .double, .ref]

/-- The letter that starts the mnemonics of a lane. -/
def letter : Lane → Text
  | .int => "i"
  | .long => "l"
  | .float => "f"
  | .double => "d"
  | .ref => "a"

/-- Whether a value of the lane takes two local variables. -/
def isWide : Lane → Bool
  | .long | .double => true
  | _ => false

end Lane

namespace Num

def all : List Num := [.int, .long, .float, .double]

def lane : Num → Lane
  | .int => .int
  | .long => .long
  | .float => .float
  | .double => .double

end Num

namespace Elem

def all : List Elem := [.int, .long, .float, .double, .ref, .byte, .char, .short]

def letter : Elem → Text
  | .int => "i"
  | .long => "l"
  | .float => "f"
  | .double => "d"
  | .ref => "a"
  | .byte => "b"
  | .char => "c"
  | .short => "s"

end Elem

def ArithOp.all : List ArithOp := [.add, .sub, .mul, .div, .rem, .neg]

def ArithOp.name : ArithOp → Text
  | .add => "add"
  | .sub => "sub"
  | .mul => "mul"
  | .div => "div"
  | .rem => "rem"
  | .neg => "neg"

def BitOp.all : List BitOp := [.shl, .shr, .ushr, .and, .or, .xor]

def BitOp.name : BitOp → Text
  | .shl => "shl"
  | .shr => "shr"
  | .ushr => "ushr"
  | .and => "and"
  | .or => "or"
  | .xor => "xor"

namespace Pred

def all : List Pred := [.eq, .ne, .lt, .ge, .gt, .le]

def name : Pred → Text
  | .eq => "eq"
  | .ne => "ne"
  | .lt => "lt"
  | .ge => "ge"
  | .gt => "gt"
  | .le => "le"

end Pred

namespace Conversion

def all : List Conversion :=
  [.i2l, .i2f, .i2d, .l2i, .l2f, .l2d, .f2i, .f2l, .f2d, .d2i, .d2l, .d2f, .i2b, .i2c, .i2s]

def name : Conversion → Text
  | .i2l => "i2l"
  | .i2f => "i2f"
  | .i2d => "i2d"
  | .l2i => "l2i"
  | .l2f => "l2f"
  | .l2d => "l2d"
  | .f2i => "f2i"
  | .f2l => "f2l"
  | .f2d => "f2d"
  | .d2i => "d2i"
  | .d2l => "d2l"
  | .d2f => "d2f"
  | .i2b => "i2b"
  | .i2c => "i2c"
  | .i2s => "i2s"

end Conversion

namespace StackOp

def all : List StackOp :=
  [.pop, .pop2, .dup, .dupX1, .dupX2, .dup2, .dup2X1, .dup2X2, .swap]

def name : StackOp → Text
  | .pop => "pop"
  | .pop2 => "pop2"
  | .dup => "dup"
  | .dupX1 => "dup_x1"
  | .dupX2 => "dup_x2"
  | .dup2 => "dup2"
  | .dup2X1 => "dup2_x1"
  | .dup2X2 => "dup2_x2"
  | .swap => "swap"

end StackOp

namespace Opcode

/-- The defined opcodes in the order of their bytes, which start at zero without a gap. -/
def all : List Opcode :=
  List.flatten [
    [.nop, .aconstNull],
    (List.finRange 7).map .iconst,
    (List.finRange 2).map .lconst,
    (List.finRange 3).map .fconst,
    (List.finRange 2).map .dconst,
    [.bipush, .sipush, .ldc, .ldcW, .ldc2W],
    Lane.all.map .load,
    Lane.all.flatMap fun l => (List.finRange 4).map (.loadAt l),
    Elem.all.map .arrayLoad,
    Lane.all.map .store,
    Lane.all.flatMap fun l => (List.finRange 4).map (.storeAt l),
    Elem.all.map .arrayStore,
    StackOp.all.map .stack,
    ArithOp.all.flatMap fun o => Num.all.map (.arith o),
    BitOp.all.flatMap fun o => [.bits o .int, .bits o .long],
    [.iinc],
    Conversion.all.map .convert,
    [.lcmp, .fcmp false false, .fcmp false true, .fcmp true false, .fcmp true true],
    Pred.all.map .ifZero,
    Pred.all.map .ifInt,
    [.ifRef true, .ifRef false, .goto, .jsr, .ret, .tableswitch, .lookupswitch],
    Lane.all.map .valueReturn,
    [.voidReturn, .field .getStatic, .field .putStatic, .field .getField, .field .putField],
    [.invoke .virtual, .invoke .special, .invoke .static, .invoke .interface, .invoke .dynamic],
    [.new, .newarray, .anewarray, .arraylength, .athrow, .checkcast, .instanceof],
    [.monitorenter, .monitorexit, .wide, .multianewarray, .ifNull true, .ifNull false],
    [.gotoW, .jsrW, .breakpoint, .endfinally]]

def ofByte (b : UInt8) : Opcode := (all[b.toNat]?).getD (.undefined b)

def byte : Opcode → UInt8
  | .undefined b => b
  | op => (all.idxOf op).toUInt8

/-- Whether the byte of the opcode stands for an instruction. -/
def isDefined : Opcode → Bool
  | .undefined _ => false
  | _ => true

/-- The name of an opcode in sources and messages. -/
def mnemonic : Opcode → Text
  | .nop => "nop"
  | .aconstNull => "aconst_null"
  | .iconst n => if n.val = 0 then "iconst_m1" else "iconst_" ++ Text.ofNat (n.val - 1)
  | .lconst n => "lconst_" ++ Text.ofNat n.val
  | .fconst n => "fconst_" ++ Text.ofNat n.val
  | .dconst n => "dconst_" ++ Text.ofNat n.val
  | .bipush => "bipush"
  | .sipush => "sipush"
  | .ldc => "ldc"
  | .ldcW => "ldc_w"
  | .ldc2W => "ldc2_w"
  | .load l => l.letter ++ "load"
  | .loadAt l n => l.letter ++ "load_" ++ Text.ofNat n.val
  | .arrayLoad e => e.letter ++ "aload"
  | .store l => l.letter ++ "store"
  | .storeAt l n => l.letter ++ "store_" ++ Text.ofNat n.val
  | .arrayStore e => e.letter ++ "astore"
  | .stack o => o.name
  | .arith o n => n.lane.letter ++ o.name
  | .bits o .int => "i" ++ o.name
  | .bits o .long => "l" ++ o.name
  | .iinc => "iinc"
  | .convert c => c.name
  | .lcmp => "lcmp"
  | .fcmp double greater =>
    (if double then "dcmp" else "fcmp" : Text) ++ (if greater then "g" else "l" : Text)
  | .ifZero p => "if" ++ p.name
  | .ifInt p => "if_icmp" ++ p.name
  | .ifRef equal => if equal then "if_acmpeq" else "if_acmpne"
  | .goto => "goto"
  | .jsr => "jsr"
  | .ret => "ret"
  | .tableswitch => "tableswitch"
  | .lookupswitch => "lookupswitch"
  | .valueReturn l => l.letter ++ "return"
  | .voidReturn => "return"
  | .field .getStatic => "getstatic"
  | .field .putStatic => "putstatic"
  | .field .getField => "getfield"
  | .field .putField => "putfield"
  | .invoke .virtual => "invokevirtual"
  | .invoke .special => "invokespecial"
  | .invoke .static => "invokestatic"
  | .invoke .interface => "invokeinterface"
  | .invoke .dynamic => "invokedynamic"
  | .new => "new"
  | .newarray => "newarray"
  | .anewarray => "anewarray"
  | .arraylength => "arraylength"
  | .athrow => "athrow"
  | .checkcast => "checkcast"
  | .instanceof => "instanceof"
  | .monitorenter => "monitorenter"
  | .monitorexit => "monitorexit"
  | .wide => "wide"
  | .multianewarray => "multianewarray"
  | .ifNull isNull => if isNull then "ifnull" else "ifnonnull"
  | .gotoW => "goto_w"
  | .jsrW => "jsr_w"
  | .breakpoint => "breakpoint"
  | .endfinally => "endfinally"
  | .undefined b => "opcode 0x" ++ Text.hexFixed 2 b.toNat

def ofMnemonic? (t : Text) : Option Opcode := all.find? fun op => op.mnemonic == t

end Opcode

/-! ## Operands -/

/-- How the operands of an opcode are laid out. -/
inductive Encoding
  | none
  /-- A signed byte. -/
  | byte
  /-- A signed short. -/
  | short
  /-- A local variable in one byte, in two under `wide`. -/
  | localIndex
  /-- A constant pool index in one byte. -/
  | poolByte
  /-- A constant pool index in two bytes. -/
  | poolShort
  /-- A relative branch in two bytes. -/
  | branchShort
  /-- A relative branch in four bytes. -/
  | branchLong
  /-- A local variable and a signed increment. -/
  | increment
  /-- The tag of a primitive array. -/
  | arrayTag
  /-- A pool index, an argument count and a zero. -/
  | interfaceCall
  /-- A pool index and two zeros. -/
  | dynamicCall
  /-- A pool index and a number of dimensions. -/
  | dimensions
  /-- A switch or the `wide` modifier. -/
  | varying
  deriving DecidableEq, Repr

/-- The length of an instruction with its opcode byte; zero if it varies. -/
def Encoding.length : Encoding → Nat
  | .none => 1
  | .byte | .localIndex | .poolByte | .arrayTag => 2
  | .short | .poolShort | .branchShort | .increment => 3
  | .dimensions => 4
  | .branchLong | .interfaceCall | .dynamicCall => 5
  | .varying => 0

namespace Opcode

/-- The layout of the operands of an opcode. -/
def encoding : Opcode → Encoding
  | .bipush => .byte
  | .sipush => .short
  | .ldc => .poolByte
  | .ldcW | .ldc2W | .field _ | .new | .anewarray | .checkcast | .instanceof => .poolShort
  | .invoke .interface => .interfaceCall
  | .invoke .dynamic => .dynamicCall
  | .invoke _ => .poolShort
  | .load _ | .store _ | .ret => .localIndex
  | .iinc => .increment
  | .ifZero _ | .ifInt _ | .ifRef _ | .ifNull _ | .goto | .jsr => .branchShort
  | .gotoW | .jsrW => .branchLong
  | .newarray => .arrayTag
  | .multianewarray => .dimensions
  | .tableswitch | .lookupswitch | .wide => .varying
  | _ => .none

/-! ## Control -/

/-- A two-way branch, which falls through when it is not taken. -/
def isConditional : Opcode → Bool
  | .ifZero _ | .ifInt _ | .ifRef _ | .ifNull _ => true
  | _ => false

/-- Carries an encoded branch target. -/
def isBranch (op : Opcode) : Bool :=
  op.isConditional || match op with
    | .goto | .gotoW | .jsr | .jsrW => true
    | _ => false

/-- A multi-way branch. -/
def isSwitch : Opcode → Bool
  | .tableswitch | .lookupswitch => true
  | _ => false

/-- Leaves the method normally. -/
def isReturn : Opcode → Bool
  | .valueReturn _ | .voidReturn => true
  | _ => false

def isInvoke : Opcode → Bool
  | .invoke _ => true
  | _ => false

/-- Control never falls through. -/
def endsBlock : Opcode → Bool
  | .goto | .gotoW | .jsr | .jsrW | .ret | .tableswitch | .lookupswitch | .valueReturn _
  | .voidReturn | .athrow | .endfinally => true
  | _ => false

/-- Can raise an exception at run time. -/
def mayThrow : Opcode → Bool
  | .arrayLoad _ | .arrayStore _ | .invoke _ | .newarray | .anewarray | .arraylength | .athrow
  | .checkcast | .monitorenter | .monitorexit | .multianewarray => true
  | .arith .div .int | .arith .div .long | .arith .rem .int | .arith .rem .long => true
  | .field .getField | .field .putField => true
  | _ => false

end Opcode
end Bytelift
