import Bytelift.Code.Method
import Bytelift.Ir.Builder

/-!
# Bailouts

A method that cannot be lifted is given up with a bailout. Either its code uses a construct that is
not supported, or the input is malformed. A bailout names the method, the bci that is to blame where
there is one, and the reason.
-/

namespace Bytelift

open Ir (Ty)

/-- The two classes of bailouts. -/
inductive BailoutKind
  | unsupported
  | malformed
  deriving DecidableEq, Repr

namespace BailoutKind

def name : BailoutKind → Text
  | .unsupported => "unsupported"
  | .malformed => "malformed"

/-- The words that open the message. -/
def title : BailoutKind → Text
  | .unsupported => "unsupported construct"
  | .malformed => "malformed input"

def ofCode (n : Nat) : BailoutKind := if n = 2 then .malformed else .unsupported

/-- A message from its parts. The method is left out if it is empty, the bci if it is negative. -/
def render (k : BailoutKind) (method : Text) (bci : Int) (reason : Text) (cause : Option Text) :
    Text :=
  List.flatten [
    if method.isEmpty then [] else method ++ ": ",
    k.title, ": ", reason,
    if 0 ≤ bci then " at bci " ++ Text.ofInt bci else [],
    match cause with
    | none => []
    | some t => ": " ++ t]

end BailoutKind

/-- The types of an operand stack, the lowest first. -/
def shapeText (shape : List Ty) : Text := Text.bracketed (shape.map Ty.name)

/-- Why a method is given up. -/
inductive Reason
  /-- The descriptor of the method does not parse. -/
  | descriptor (desc : Text) (e : DescriptorError)
  | undecodable (e : CodeError)
  | emptyCode
  | emptyRange (entry : Nat) (start stop : Int)
  | entryStart (entry : Nat)
  | entryStop (entry : Nat)
  | entryHandler (entry : Nat)
  /-- A row of the exception table is both a catch and a cleanup. -/
  | entryBoth (entry : Nat)
  | branchTarget (op : Opcode) (target : Int)
  | fallsOff
  | entersCleanup
  | sharedBlock
  | stackMismatch (recorded found : List Ty)
  | notBlock
  | underflow
  | operandType (found wanted : Ty)
  /-- The constant pool has no fitting entry for an instruction. -/
  | poolOperand (use : Text) (e : PoolError)
  | loadConstant (op : Opcode) (constant : Text)
  | returnType (op : Opcode) (result : Ty)
  | fieldDescriptor (e : DescriptorError)
  | layoutField (key : Text) (e : DescriptorError)
  | newArrayClass (name : Text)
  | arrayTag (tag : Int)
  | arrayType (e : DescriptorError)
  | notArray (desc : Text)
  | dimensions (name : Text) (count : Int)
  | invokeDescriptor (e : DescriptorError)
  | invokeOwner (op : Opcode) (isInterface : Bool) (key : Text)
  | endOutsideCleanup
  | notAllowed (op : Opcode)
  | leavingStack (count : Nat)
  | classLiteral (name : Text)
  | subroutine (op : Opcode)
  | monitor (op : Opcode)
  | opcode (op : Opcode)
  | dynamicInvoke
  | nestedCleanups (count limit : Nat)
  | unwindCleanups (count limit : Nat)
  /-- The module that was built does not verify. -/
  | unverified (e : Ir.BuildError)
  /-- The lifter refers to a part of its own state that is not there. -/
  | internal
  deriving DecidableEq, Repr

namespace Reason

def kind : Reason → BailoutKind
  | .notAllowed _ | .leavingStack _ | .classLiteral _ | .subroutine _ | .monitor _ | .opcode _
  | .dynamicInvoke | .nestedCleanups _ _ | .unwindCleanups _ _ | .unverified _ | .internal =>
    .unsupported
  | _ => .malformed

/-- A row of the exception table in messages. -/
def entryText (entry : Nat) : Text := "exception entry " ++ Text.ofNat entry

def text : Reason → Text
  | .descriptor desc e => "descriptor " ++ desc.quote ++ ": " ++ e.message
  | .undecodable _ => "undecodable code"
  | .emptyCode => "empty code"
  | .emptyRange i s e =>
    entryText i ++ " has empty range [" ++ Text.ofInt s ++ "," ++ Text.ofInt e ++ ")"
  | .entryStart i => entryText i ++ " starts inside an instruction"
  | .entryStop i => entryText i ++ " ends inside an instruction"
  | .entryHandler i => entryText i ++ " handler is not an instruction boundary"
  | .entryBoth i => entryText i ++ " is both a catch and a cleanup"
  | .branchTarget op t =>
    op.mnemonic ++ " targets " ++ Text.ofInt t ++ ", which is not an instruction boundary"
  | .fallsOff => "control falls off the end of the code"
  | .entersCleanup => "ordinary control flow enters cleanup code"
  | .sharedBlock => "block is shared by different cleanup regions"
  | .stackMismatch a b =>
    "inconsistent operand stack at block entry: " ++ shapeText a ++ " vs " ++ shapeText b
  | .notBlock => "control transfer to a non-block bci"
  | .underflow => "operand stack underflow"
  | .operandType found wanted => "operand has type " ++ found.name ++ ", want " ++ wanted.name
  | .poolOperand use _ => use ++ " operand"
  | .loadConstant op c => op.mnemonic ++ " of constant " ++ c
  | .returnType op ty => op.mnemonic ++ " in a method returning " ++ ty.name
  | .fieldDescriptor _ => "field descriptor"
  | .layoutField key _ => "field " ++ key
  | .newArrayClass name => "new of array class " ++ name
  | .arrayTag tag => "newarray with bad type tag " ++ Text.ofInt tag
  | .arrayType _ | .notArray _ => "array type"
  | .dimensions name n => "multianewarray " ++ name ++ " with " ++ Text.ofInt n ++ " dimensions"
  | .invokeDescriptor _ => "invoke descriptor"
  | .invokeOwner op isInterface key =>
    op.mnemonic ++ " of " ++ (if isInterface then "interface" else "class" : Text) ++ " method " ++ key
  | .endOutsideCleanup => "endfinally outside cleanup code"
  | .notAllowed op => "opcode " ++ op.mnemonic ++ " is not in the allow-list"
  | .leavingStack n =>
    "leaving a cleanup region with " ++ Text.ofNat n ++ " operand stack entries"
  | .classLiteral name => "class literal " ++ name
  | .subroutine op => "subroutines (" ++ op.mnemonic ++ ")"
  | .monitor op => "monitors (" ++ op.mnemonic ++ ")"
  | .opcode op => "opcode " ++ op.mnemonic
  | .dynamicInvoke => "invokedynamic"
  | .nestedCleanups n limit =>
    Text.ofNat n ++ " nested cleanup regions exceed the limit of " ++ Text.ofNat limit
  | .unwindCleanups n limit =>
    Text.ofNat n ++ " cleanup regions on one unwind path exceed the limit of " ++ Text.ofNat limit
  | .unverified _ => "generated IR failed verification"
  | .internal => "internal error: missing part"

/-- The fault behind the reason, if the message ends with one. -/
def cause : Reason → Option Text
  | .undecodable e => some e.message
  | .poolOperand _ e => some e.message
  | .fieldDescriptor e | .layoutField _ e | .arrayType e | .invokeDescriptor e => some e.message
  | .notArray desc => some (desc.quote ++ " is not an array type")
  | .unverified e => some e.message
  | _ => none

end Reason

/-- A method that was given up. -/
structure Bailout where
  method : Text := []
  /-- The bci that is to blame; negative if there is none. -/
  bci : Int
  reason : Reason
  deriving DecidableEq, Repr

namespace Bailout

def kind (b : Bailout) : BailoutKind := b.reason.kind

def message (b : Bailout) : Text := b.kind.render b.method b.bci b.reason.text b.reason.cause

end Bailout
end Bytelift
