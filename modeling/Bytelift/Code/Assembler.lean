import Bytelift.Code.Method
import Std.Data.HashMap

/-!
# Assembling methods

An assembler turns symbolic instructions into a method. Branches, switches and exception ranges name
labels, whose positions `build` fills in. Constants are interned: asking for a constant again gives the
index of the first one.

The first mistake is recorded and stays; later calls still append their bytes, so positions go on
growing, but `build` only reports the mistake.
-/

namespace Bytelift

/-- A mistake in the use of an assembler. -/
inductive AssemblyError
  | duplicateLabel (label : Text)
  | unknownOpcode (byte : UInt8)
  | takesOperands (op : Opcode)
  | outOfRange (op : Opcode) (value : Int)
  | badTag (tag : Int)
  | noImmediate (op : Opcode)
  | noLocal (op : Opcode)
  | notBranch (op : Opcode)
  | emptySwitch
  | unevenSwitch
  | unsortedSwitch
  | notInvoke (op : Opcode)
  | notField (op : Opcode)
  | noClass (op : Opcode)
  | badDimensions (desc : Text) (dims : Int)
  | descriptor (cause : DescriptorError)
  | undefinedLabel (label : Text)
  | farBranch (label : Text)
  deriving DecidableEq, Repr

def AssemblyError.message : AssemblyError → Text
  | .duplicateLabel l => "label " ++ l.quote ++ " defined twice"
  | .unknownOpcode b => "0x" ++ Text.hexFixed 2 b.toNat ++ ": unknown opcode"
  | .takesOperands op => op.mnemonic ++ " takes operands"
  | .outOfRange op v => op.mnemonic ++ " operand " ++ Text.ofInt v ++ " out of range"
  | .badTag t => "bad newarray tag " ++ Text.ofInt t
  | .noImmediate op => op.mnemonic ++ " does not take an immediate"
  | .noLocal op => op.mnemonic ++ " does not take a local index"
  | .notBranch op => op.mnemonic ++ " is not a branch"
  | .emptySwitch => "tableswitch without cases"
  | .unevenSwitch => "lookupswitch keys and labels differ in length"
  | .unsortedSwitch => "lookupswitch keys must be ascending"
  | .notInvoke op => op.mnemonic ++ " is not an invoke"
  | .notField op => op.mnemonic ++ " is not a field access"
  | .noClass op => op.mnemonic ++ " does not take a class"
  | .badDimensions d n => "multianewarray " ++ d ++ " with " ++ Text.ofInt n ++ " dimensions"
  | .descriptor e => e.message
  | .undefinedLabel l => l.quote ++ ": undefined label"
  | .farBranch l => "branch to " ++ l.quote ++ " out of range"

/-- What tells interned constants apart. Methods and fields are told apart by their symbols. -/
inductive InternKey
  | cls (name : Text)
  | method (key : Text)
  | field (key : Text)
  | int (value : Int)
  | long (value : Int)
  | float (bits : Nat)
  | double (bits : UInt64)
  | string (value : Text)
  deriving DecidableEq, Repr, Hashable

/-- A place in the code that waits for the position of a label, relative to `base`. -/
structure Fixup where
  offset : Nat
  base : Nat
  isLong : Bool
  label : Text
  deriving DecidableEq, Repr

/-- A row of the exception table whose positions are labels. -/
structure TryEntry where
  start : Text
  stop : Text
  handler : Text
  catchType : Text := []
  isCleanup : Bool := false
  deriving DecidableEq, Repr

/-- A method body being assembled. -/
structure Assembler where
  owner : Text
  name : Text
  desc : Text
  isStatic : Bool
  maxLocals : Int := 0
  maxStack : Int := 0
  code : Array UInt8 := #[]
  pool : ConstantPool := {}
  interned : Std.HashMap InternKey Nat := {}
  labels : Std.HashMap Text Nat := {}
  fixups : Array Fixup := #[]
  tries : Array TryEntry := #[]
  classes : Std.HashMap Text ClassRef := {}
  error : Option AssemblyError := none

namespace Assembler

/-- Records a mistake unless there is one already. -/
def fail (a : Assembler) (e : AssemblyError) : Assembler :=
  { a with error := a.error <|> some e }

/-- The bci of the next instruction. -/
def pos (a : Assembler) : Nat := a.code.size

/-- Asks for at least `n` local variables. -/
def locals (a : Assembler) (n : Int) : Assembler := { a with maxLocals := max a.maxLocals n }

/-- Sets the stack size, which nothing depends on. -/
def stack (a : Assembler) (n : Int) : Assembler := { a with maxStack := n }

/-! ## Classes and constants -/

/-- The layout of a declared class: the fields of its declared superclass and then its own, which
belong to the class itself unless they name an owner. -/
def layout (a : Assembler) (c : ClassRef) : ClassRef :=
  let inherited := (a.classes[c.super]?.map (·.fields)).getD []
  let own := c.fields.map fun f => if f.owner.isEmpty then { f with owner := c.name } else f
  { c with fields := inherited ++ own }

/-- Declares a class, so that constants use its layout. -/
def declareClass (a : Assembler) (c : ClassRef) : Assembler :=
  { a with classes := a.classes.insert c.name (a.layout c) }

/-- The class of a name; one that was not declared has an empty layout. -/
def classRef (a : Assembler) (name : Text) : Assembler × ClassRef :=
  match a.classes[name]? with
  | some c => (a, c)
  | none =>
    let c : ClassRef := { name }
    ({ a with classes := a.classes.insert name c }, c)

/-- The index of a constant, which is added to the pool if its key is new. -/
def intern (a : Assembler) (key : InternKey) (c : Constant) : Assembler × Nat :=
  match a.interned[key]? with
  | some i => (a, i)
  | none =>
    let i := a.pool.size
    ({ a with pool := a.pool.push c, interned := a.interned.insert key i }, i)

def classIndex (a : Assembler) (name : Text) : Assembler × Nat :=
  let (a, c) := a.classRef name
  a.intern (.cls name) (.cls c)

def methodIndex (a : Assembler) (m : MethodRef) : Assembler × Nat :=
  a.intern (.method m.key) (.method m)

/-- The owner of a field: if the class is declared, the owner of the first field of its layout with
this name. -/
def fieldOwner (a : Assembler) (owner name : Text) : Text :=
  match a.classes[owner]? with
  | none => owner
  | some c => ((c.fields.find? fun f => f.name == name).map (·.owner)).getD owner

def fieldIndex (a : Assembler) (owner name desc : Text) : Assembler × Nat :=
  let ref : FieldRef := ⟨a.fieldOwner owner name, name, desc⟩
  a.intern (.field ref.key) (.field ref)

/-! ## Bytes -/

def lowByte (v : Int) : UInt8 := (v % 256).toNat.toUInt8

def emit (a : Assembler) (bs : List UInt8) : Assembler := { a with code := a.code ++ bs.toArray }

/-- The low two bytes of a number, most significant first. -/
def bytes2 (v : Int) : List UInt8 := [lowByte (v / 256), lowByte v]

/-- The low four bytes of a number, most significant first. -/
def bytes4 (v : Int) : List UInt8 := bytes2 (v / 65536) ++ bytes2 v

def emit2 (a : Assembler) (v : Int) : Assembler := a.emit (bytes2 v)
def emit4 (a : Assembler) (v : Int) : Assembler := a.emit (bytes4 v)

/-- Makes room for a local variable. The number of slots is a word of 64 bits, so that it wraps behind
the largest index. -/
def useLocal (a : Assembler) (index : Int) (isWide : Bool) : Assembler :=
  a.locals (Int64.ofInt (if isWide then index + 2 else index + 1)).toInt

/-! ## Instructions -/

/-- Binds a label to the current position. -/
def label (a : Assembler) (name : Text) : Assembler :=
  if a.labels.contains name then a.fail (.duplicateLabel name)
  else { a with labels := a.labels.insert name a.pos }

/-- An instruction without operands. -/
def op (a : Assembler) (op : Opcode) : Assembler :=
  if !op.isDefined then a.fail (.unknownOpcode op.byte)
  else if op.encoding ≠ .none then a.fail (.takesOperands op)
  else
    let a := a.emit [op.byte]
    match op with
    | .loadAt l n | .storeAt l n => a.useLocal n.val l.isWide
    | _ => a

/-- `bipush`, `sipush` or `newarray` with its operand. -/
def int (a : Assembler) (op : Opcode) (v : Int) : Assembler :=
  match op with
  | .bipush =>
    if v < -128 ∨ 127 < v then a.fail (.outOfRange op v) else a.emit [op.byte, lowByte v]
  | .sipush =>
    if v < -32768 ∨ 32767 < v then a.fail (.outOfRange op v) else (a.emit [op.byte]).emit2 v
  | .newarray =>
    if (Kind.ofArrayTag? v).isNone then a.fail (.badTag v) else a.emit [op.byte, lowByte v]
  | _ => a.fail (.noImmediate op)

/-- Loads a constant by its pool index. -/
def ldc (a : Assembler) (index : Nat) : Assembler :=
  if index ≤ 255 then a.emit [Opcode.ldc.byte, lowByte index]
  else (a.emit [Opcode.ldcW.byte]).emit2 index

/-- Loads a constant of two words by its pool index. -/
def ldc2 (a : Assembler) (index : Nat) : Assembler := (a.emit [Opcode.ldc2W.byte]).emit2 index

def ldcInt (a : Assembler) (v : Int) : Assembler :=
  let (a, i) := a.intern (.int v) (.int (Int64.ofInt v))
  a.ldc i

def ldcLong (a : Assembler) (v : Int) : Assembler :=
  let (a, i) := a.intern (.long v) (.long (Int64.ofInt v))
  a.ldc2 i

/-- Loads a single precision constant, given as the double it equals. -/
def ldcFloat (a : Assembler) (v : Double) : Assembler :=
  let (a, i) := a.intern (.float v.toSingleBits) (.float v)
  a.ldc i

def ldcDouble (a : Assembler) (v : Double) : Assembler :=
  let (a, i) := a.intern (.double v.bits) (.double v)
  a.ldc2 i

def ldcString (a : Assembler) (t : Text) : Assembler :=
  let (a, i) := a.intern (.string t) (.string t)
  a.ldc i

/-- The opcode that pushes a small int by itself. -/
def smallInt? (v : Int) : Option Opcode :=
  if h : 0 ≤ v + 1 ∧ (v + 1).toNat < 7 then some (.iconst ⟨(v + 1).toNat, h.2⟩) else none

/-- The shortest instruction that pushes an int. -/
def pushInt (a : Assembler) (v : Int) : Assembler :=
  match smallInt? v with
  | some op => a.op op
  | none =>
    if -128 ≤ v ∧ v ≤ 127 then a.int .bipush v
    else if -32768 ≤ v ∧ v ≤ 32767 then a.int .sipush v
    else a.ldcInt v

/-- A load, a store or `ret` with a local variable; an index beyond a byte takes the wide form. -/
def localOp (a : Assembler) (op : Opcode) (index : Int) : Assembler :=
  let emitIndexed (a : Assembler) : Assembler :=
    if 255 < index then (a.emit [Opcode.wide.byte, op.byte]).emit2 index
    else a.emit [op.byte, lowByte index]
  match op with
  | .load l | .store l => emitIndexed (a.useLocal index l.isWide)
  | .ret => emitIndexed (a.useLocal index false)
  | _ => a.fail (.noLocal op)

/-- `iinc`, in the wide form if an operand does not fit a byte. -/
def iinc (a : Assembler) (index delta : Int) : Assembler :=
  let a := a.useLocal index false
  if 255 < index ∨ delta < -128 ∨ 127 < delta then
    ((a.emit [Opcode.wide.byte, Opcode.iinc.byte]).emit2 index).emit2 delta
  else a.emit [Opcode.iinc.byte, lowByte index, lowByte delta]

/-- Leaves room for the position of a label relative to `base`. -/
def reference (a : Assembler) (base : Nat) (isLong : Bool) (label : Text) : Assembler :=
  let a := { a with fixups := a.fixups.push ⟨a.pos, base, isLong, label⟩ }
  if isLong then a.emit4 0 else a.emit2 0

def branch (a : Assembler) (op : Opcode) (label : Text) : Assembler :=
  match op.encoding with
  | .branchShort => (a.emit [op.byte]).reference a.pos false label
  | .branchLong => (a.emit [op.byte]).reference a.pos true label
  | _ => a.fail (.notBranch op)

/-- Zero bytes up to the next multiple of four. -/
def pad (a : Assembler) : Assembler := a.emit (List.replicate ((4 - a.pos % 4) % 4) 0)

/-- A `tableswitch` whose keys start at `low`. -/
def tableSwitch (a : Assembler) (low : Int) (fallback : Text) (labels : List Text) : Assembler :=
  if labels.isEmpty then a.fail .emptySwitch
  else
    let base := a.pos
    let a := ((a.emit [Opcode.tableswitch.byte]).pad).reference base true fallback
    let a := (a.emit4 low).emit4 (low + labels.length - 1)
    labels.foldl (fun a l => a.reference base true l) a

/-- The arms of a `lookupswitch`, up to a key that is not above the one before. -/
def lookupArms (base : Nat) : Assembler → Option Int → List (Int × Text) → Assembler
  | a, _, [] => a
  | a, previous, (k, l) :: arms =>
    if previous.any (k ≤ ·) then a.fail .unsortedSwitch
    else lookupArms base ((a.emit4 k).reference base true l) (some k) arms

/-- A `lookupswitch` with ascending keys. -/
def lookupSwitch (a : Assembler) (fallback : Text) (keys : List Int) (labels : List Text) :
    Assembler :=
  if keys.length ≠ labels.length then a.fail .unevenSwitch
  else
    let base := a.pos
    let a := ((a.emit [Opcode.lookupswitch.byte]).pad).reference base true fallback
    lookupArms base (a.emit4 keys.length) none (keys.zip labels)

/-- One of the calls. An interface call also encodes the number of argument words. -/
def invoke (a : Assembler) (op : Opcode) (owner name desc : Text) : Assembler :=
  let call (a : Assembler) (isInterface : Bool) (tail : List UInt8) : Assembler :=
    let (a, i) := (a.emit [op.byte]).methodIndex ⟨owner, name, desc, isInterface⟩
    (a.emit2 i).emit tail
  match op with
  | .invoke .interface =>
    match MethodType.parse desc with
    | .error e => a.fail (.descriptor e)
    | .ok t => call a true [lowByte (t.argSlots + 1), 0]
  | .invoke .dynamic => call a false [0, 0]
  | .invoke _ => call a false []
  | _ => a.fail (.notInvoke op)

def field (a : Assembler) (op : Opcode) (owner name desc : Text) : Assembler :=
  match op with
  | .field _ =>
    let (a, i) := (a.emit [op.byte]).fieldIndex owner name desc
    a.emit2 i
  | _ => a.fail (.notField op)

/-- `new`, `anewarray`, `checkcast` or `instanceof`. -/
def classOp (a : Assembler) (op : Opcode) (name : Text) : Assembler :=
  match op with
  | .new | .anewarray | .checkcast | .instanceof =>
    let (a, i) := (a.emit [op.byte]).classIndex name
    a.emit2 i
  | _ => a.fail (.noClass op)

/-- `multianewarray` of an array type with at least `dims` dimensions. -/
def multiArray (a : Assembler) (desc : Text) (dims : Int) : Assembler :=
  match FieldType.parse desc with
  | .error e => a.fail (.descriptor e)
  | .ok t =>
    if dims < 1 ∨ (t.dims : Int) < dims ∨ 255 < dims then a.fail (.badDimensions desc dims)
    else
      let (a, i) := (a.emit [Opcode.multianewarray.byte]).classIndex desc
      (a.emit2 i).emit [lowByte dims]

/-- Adds a row to the exception table. -/
def guardRange (a : Assembler) (t : TryEntry) : Assembler := { a with tries := a.tries.push t }

/-! ## Building -/

def resolve (a : Assembler) (label : Text) : Except AssemblyError Nat :=
  match a.labels[label]? with
  | some p => .ok p
  | none => .error (.undefinedLabel label)

/-- Overwrites the bytes from an offset on. -/
def patch (code : Array UInt8) (offset : Nat) : List UInt8 → Array UInt8
  | [] => code
  | b :: bs => patch (code.setIfInBounds offset b) (offset + 1) bs

/-- Fills in the position of one label. -/
def applyFixup (a : Assembler) (code : Array UInt8) (f : Fixup) :
    Except AssemblyError (Array UInt8) := do
  let p ← a.resolve f.label
  let rel : Int := p - f.base
  if f.isLong then return patch code f.offset (bytes4 rel)
  else if rel < -32768 ∨ 32767 < rel then throw (.farBranch f.label)
  else return patch code f.offset (bytes2 rel)

/-- A row of the exception table with its positions. -/
def resolveTry (a : Assembler) (t : TryEntry) : Except AssemblyError ExceptionEntry := do
  let start ← a.resolve t.start
  let stop ← a.resolve t.stop
  let handler ← a.resolve t.handler
  return ⟨start, stop, handler, t.catchType, t.isCleanup⟩

/-- The method with every label resolved. -/
def finish (a : Assembler) : Except AssemblyError Method := do
  let code ← a.fixups.toList.foldlM a.applyFixup a.code
  let exceptions ← a.tries.toList.mapM a.resolveTry
  return {
    owner := a.owner, name := a.name, desc := a.desc, isStatic := a.isStatic
    maxLocals := a.maxLocals, maxStack := a.maxStack
    code := code.toList, exceptions, pool := a.pool }

/-- The finished method, and the assembler with room for the parameters. -/
def build (a : Assembler) : Assembler × Except AssemblyError Method :=
  match a.error with
  | some e => (a, .error e)
  | none =>
    match MethodType.parse a.desc with
    | .error e => (a, .error (.descriptor e))
    | .ok t =>
      let a := a.locals (if a.isStatic then t.argSlots else t.argSlots + 1)
      (a, a.finish)

end Assembler
end Bytelift
