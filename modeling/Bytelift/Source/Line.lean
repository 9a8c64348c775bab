import Bytelift.Source.Fault

/-!
# Assembling one line

A line of a method body is a label, a directive or an instruction. `assembleLine` hands it to an
assembler. Operands are checked in the order in which the assembler needs them, and tokens beyond the
operands of an instruction without a fixed count are passed over.
-/

namespace Bytelift.Source

open Text (byte)

def intOperand (args : List Text) (i : Nat) : Except LineFault Int :=
  match args[i]? with
  | none => .error (.missingOperand (i + 1))
  | some t =>
    match Number.readInteger 32 t with
    | .error e => .error (.number e)
    | .ok v => .ok v

/-- The owner and the name of a member. -/
def member (t : Text) : Except LineFault (Text × Text) :=
  match splitMember? t with
  | some p => .ok p
  | none => .error (.notMember t)

/-- The array tag that a primitive kind or a number names. -/
def elementTag (t : Text) : Except LineFault Int :=
  match (Kind.ofName? t).bind Kind.arrayTag? with
  | some tag => .ok tag
  | none =>
    match Number.readPlain? t with
    | some v => .ok v
    | none => .error (.unknownElementType t)

/-- Loads the constant that a token writes: a string, a float ending in `f`, or an int. -/
def loadConstant (a : Assembler) (t : Text) : Except LineFault Assembler :=
  if List.isPrefixOf [byte '"'] t then
    match t.unquote? with
    | some s => .ok (a.ldcString s)
    | none => .error (.badString t)
  else if List.isSuffixOf [byte 'f'] t && !List.isPrefixOf (Text.ofString "0x") t then
    match Number.readFloat .single (t.trimSuffix "f") with
    | .ok v => .ok (a.ldcFloat v)
    | .error e => .error (.number e)
  else
    match Number.readInteger 32 t with
    | .ok v => .ok (a.ldcInt v)
    | .error e => .error (.number e)

/-- Whether a constant of two words is written as a double. -/
def looksDouble (t : Text) : Bool :=
  t.any (fun b => b == byte '.' || b == byte 'e' || b == byte 'E') &&
    !List.isPrefixOf (Text.ofString "0x") t

/-- Loads the constant of two words that a token writes: a double, or a long that may end in `L`. -/
def loadWide (a : Assembler) (t : Text) : Except LineFault Assembler :=
  if looksDouble t then
    match Number.readFloat .double t with
    | .ok v => .ok (a.ldcDouble v)
    | .error e => .error (.number e)
  else
    match Number.readInteger 64 (t.trimSuffix "L") with
    | .ok v => .ok (a.ldcLong v)
    | .error e => .error (.number e)

/-- An instruction that names a constant. -/
def poolInstruction (a : Assembler) (op : Opcode) (args : List Text) :
    Except LineFault Assembler :=
  match op with
  | .ldc | .ldcW =>
    match args with
    | [t] => loadConstant a t
    | _ => .error (.wantsConstant op)
  | .ldc2W =>
    match args with
    | [t] => loadWide a t
    | _ => .error (.wantsConstant op)
  | .invoke _ =>
    match args with
    | [m, desc] => do
      let (owner, name) ← member m
      return a.invoke op owner name desc
    | _ => .error (.wantsMember op)
  | .field _ =>
    match args with
    | [m, desc] => do
      let (owner, name) ← member m
      return a.field op owner name desc
    | _ => .error (.wantsMember op)
  | .new | .anewarray | .checkcast | .instanceof =>
    match args with
    | [t] => .ok (a.classOp op t)
    | _ => .error (.wantsClass op)
  | .multianewarray => do
    let dims ← intOperand args 1
    return a.multiArray (args.headD []) dims
  | _ => .error (.notTextual op)

/-- The key and the label of an arm `key:label`. -/
def switchArm (t : Text) : Except LineFault (Int × Text) :=
  match t.cutAt (byte ':') with
  | none => .error (.badCase t)
  | some (k, l) =>
    match Number.readInteger 32 k with
    | .ok v => .ok (v, l)
    | .error e => .error (.number e)

def switchInstruction (a : Assembler) (op : Opcode) (args : List Text) :
    Except LineFault Assembler :=
  match op, args with
  | .tableswitch, _ :: fallback :: l :: labels => do
    let low ← intOperand args 0
    return a.tableSwitch low fallback (l :: labels)
  | .tableswitch, _ => .error .tableOperands
  | .lookupswitch, fallback :: arms => do
    let arms ← arms.mapM switchArm
    return a.lookupSwitch fallback (arms.map (·.1)) (arms.map (·.2))
  | .lookupswitch, [] => .error .lookupOperands
  | _, _ => .error (.notTextual op)

def instruction (a : Assembler) (op : Opcode) (args : List Text) : Except LineFault Assembler :=
  match op.encoding with
  | .none => .ok (a.op op)
  | .byte | .short => do
    let v ← intOperand args 0
    return a.int op v
  | .arrayTag =>
    match args with
    | [t] => do
      let tag ← elementTag t
      return a.int op tag
    | _ => .error .elementTypeMissing
  | .localIndex => do
    let v ← intOperand args 0
    return a.localOp op v
  | .increment => do
    let index ← intOperand args 0
    let delta ← intOperand args 1
    return a.iinc index delta
  | .branchShort | .branchLong =>
    match args with
    | [l] => .ok (a.branch op l)
    | _ => .error (.wantsLabel op)
  | .poolByte | .poolShort | .interfaceCall | .dynamicCall | .dimensions =>
    poolInstruction a op args
  | .varying => switchInstruction a op args

/-- A directive of a method body, if the head of the line is one. -/
def directive? (a : Assembler) (head : Text) (args : List Text) :
    Option (Except LineFault Assembler) :=
  if head = Text.ofString ".locals" then some do
    let n ← intOperand args 0
    return a.locals n
  else if head = Text.ofString ".stack" then some do
    let n ← intOperand args 0
    return a.stack n
  else if head = Text.ofString ".try" then
    match args with
    | [start, stop, handler, type] =>
      let catchType := if type = Text.ofString "any" then [] else type
      some (.ok (a.guardRange { start, stop, handler, catchType }))
    | _ => some (.error .tryOperands)
  else if head = Text.ofString ".finally" then
    match args with
    | [start, stop, handler] =>
      some (.ok (a.guardRange { start, stop, handler, isCleanup := true }))
    | _ => some (.error .finallyOperands)
  else none

def assembleLine (a : Assembler) (head : Text) (args : List Text) :
    Except LineFault Assembler :=
  if List.isSuffixOf [byte ':'] head && args.isEmpty then .ok (a.label head.dropLast)
  else
    match directive? a head args with
    | some r => r
    | none =>
      match Opcode.ofMnemonic? head with
      | none => .error (.unknownMnemonic head)
      | some op => instruction a op args

end Bytelift.Source
