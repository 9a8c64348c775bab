import Bytelift.Ir.Module

/-!
# Verification

The structural rules of a module:

* every block ends in a terminator, and every edge names a block;
* a value is used after its definition, in the same block or down a chain of continuation blocks;
  other data flows through slots;
* a block that may unwind ends in an instruction that can fault, and unwinds to a landingpad;
* a landingpad block starts with a landingpad instruction, and its clauses name blocks.

Blocks are checked in order, each with the values that are available at its start.
-/

namespace Bytelift.Ir

inductive BlockFault
  | foreign (id : ValueId)
  | undefinedUse (id : ValueId) (op : Op) (arg : ValueId)
  | strayLandingpad (id : ValueId)
  | missingTerminator
  | badJump
  | badBranch
  | badDefault
  | badCase (key : Int)
  | outsideUse (value : ValueId)
  | operandType (value : ValueId) (found wanted : Ty)
  | voidReturn (result : Ty)
  | throwTarget
  | unwindEdges
  | noFault
  | unknownTerminator (code : Nat)
  | noLandingpad
  | clauseTarget
  /-- The block lists an instruction that does not exist, so that nothing can be said about it. -/
  | dangling (id : ValueId)
  deriving DecidableEq, Repr

def valueText (v : ValueId) : Text := "%" ++ Text.ofInt v

def BlockFault.message : BlockFault → Text
  | .foreign id => "instruction " ++ valueText id ++ " listed in foreign block"
  | .undefinedUse id op arg =>
    valueText id ++ " (" ++ op.name ++ ") uses " ++ valueText arg ++
      " before or outside its definition"
  | .strayLandingpad id =>
    "landingpad instruction " ++ valueText id ++ " is not first in a landingpad block"
  | .missingTerminator => "missing terminator"
  | .badJump => "bad jump target"
  | .badBranch => "bad branch target"
  | .badDefault => "bad switch default"
  | .badCase key => "bad switch case " ++ Text.ofInt key
  | .outsideUse v => "terminator uses " ++ valueText v ++ " outside its block"
  | .operandType v found wanted =>
    "terminator operand " ++ valueText v ++ " has type " ++ found.name ++ ", want " ++ wanted.name
  | .voidReturn ty => "void return from " ++ ty.name ++ " method"
  | .throwTarget => "throw unwinds to a non-landingpad block"
  | .unwindEdges => "may-unwind needs a normal target and a landingpad"
  | .noFault => "may-unwind block does not end in a faulting instruction"
  | .unknownTerminator n => "unknown terminator " ++ Text.ofNat n
  | .noLandingpad => "landingpad block lacks a landingpad instruction"
  | .clauseTarget => "landingpad clause names unknown block"
  | .dangling id => "instruction " ++ valueText id ++ " does not exist"

inductive VerifyError
  | noEntry (method : Text)
  | inBlock (method label : Text) (fault : BlockFault)
  deriving DecidableEq, Repr

def VerifyError.message : VerifyError → Text
  | .noEntry method => method ++ ": no entry block"
  | .inBlock method label fault => method ++ ": block " ++ label ++ ": " ++ fault.message

namespace Module

/-- Whether a reference names a block. -/
def hasBlock (m : Module) (b : BlockId) : Bool := 0 ≤ b && b < m.blocks.size

def isPad (m : Module) (b : BlockId) : Bool := (m.block? b).any (·.pad.isSome)

/-- Checks the instructions of a block from position `pos` on, given the values defined before, and
returns the values defined after. -/
def verifyInsts (m : Module) (b : Block) :
    Nat → List ValueId → List ValueId → Except BlockFault (List ValueId)
  | _, [], defined => .ok defined
  | pos, id :: ids, defined =>
    match m.inst? id with
    | none => .error (.dangling id)
    | some i =>
      if i.block ≠ b.id then .error (.foreign id)
      else
        match i.args.find? fun a => !defined.contains a with
        | some a => .error (.undefinedUse id i.op a)
        | none =>
          if i.op = .landingpad ∧ (pos ≠ 0 ∨ b.pad.isNone) then .error (.strayLandingpad id)
          else verifyInsts m b (pos + 1) ids (id :: defined)

/-- Checks that a terminator may use a value, and the type of the value unless `void` is wanted. -/
def verifyUse (m : Module) (defined : List ValueId) (v : ValueId) (wanted : Ty) :
    Except BlockFault Unit :=
  if !defined.contains v then .error (.outsideUse v)
  else
    match m.inst? v with
    | none => .error (.dangling v)
    | some i =>
      if wanted ≠ .void ∧ i.ty ≠ wanted then .error (.operandType v i.ty wanted) else .ok ()

/-- Checks the terminator of a block, given the values defined in it. -/
def verifyTerm (m : Module) (b : Block) (defined : List ValueId) : Except BlockFault Unit :=
  match b.term with
  | .none => .error .missingTerminator
  | .goto t | .fallthrough t => if m.hasBlock t then .ok () else .error .badJump
  | .condBr v t e =>
    if m.hasBlock t && m.hasBlock e then m.verifyUse defined v .i1 else .error .badBranch
  | .switch v d cases =>
    if d ≠ noBlock ∧ !m.hasBlock d then .error .badDefault
    else
      match cases.find? fun c => !m.hasBlock c.target with
      | some c => .error (.badCase c.key)
      | none => m.verifyUse defined v .i32
  | .ret v =>
    if v ≠ noValue then m.verifyUse defined v m.result
    else if m.result = .void then .ok ()
    else .error (.voidReturn m.result)
  | .throw v u => do
    m.verifyUse defined v .ref
    if u ≠ noBlock ∧ !m.isPad u then .error .throwTarget
  | .mayUnwind t u =>
    if m.hasBlock t && m.isPad u then
      if (m.inst? b.last).any (·.op.mayThrow) then .ok () else .error .noFault
    else .error .unwindEdges
  | .resume v => m.verifyUse defined v .ref
  | .unreachable => .ok ()
  | .unknown n => .error (.unknownTerminator n)

/-- Checks that a landingpad block starts with its instruction and has clauses that name blocks. -/
def verifyPad (m : Module) (b : Block) : Except BlockFault Unit :=
  match b.pad with
  | none => .ok ()
  | some pad =>
    if !(b.insts[0]?.bind m.inst?).any (·.op = .landingpad) then .error .noLandingpad
    else if pad.clauses.all fun c => m.hasBlock c.target then .ok ()
    else .error .clauseTarget

/-- Checks one block, given the values available at its start, and returns those at its end. -/
def verifyBlock (m : Module) (b : Block) (available : List ValueId) :
    Except BlockFault (List ValueId) := do
  let defined ← m.verifyInsts b 0 b.insts.toList available
  m.verifyTerm b defined
  m.verifyPad b
  return defined

/-- The values available at the start of a block: those at the end of its only predecessor, if it is a
continuation block that comes after it. `ends` holds the values at the end of the blocks before. -/
def availableAt (ends : Array (List ValueId)) (b : Block) : List ValueId :=
  match b.kind, b.preds with
  | .continue, [p] => if p < b.id then (lookup? ends p).getD [] else []
  | _, _ => []

/-- Checks the remaining blocks, given the values at the end of each block before. -/
def verifyBlocks (m : Module) : Array (List ValueId) → List Block → Except VerifyError Unit
  | _, [] => .ok ()
  | ends, b :: bs =>
    match m.verifyBlock b (availableAt ends b) with
    | .error f => .error (.inBlock m.method b.label f)
    | .ok defined => verifyBlocks m (ends.push defined) bs

def verify (m : Module) : Except VerifyError Unit :=
  if m.entry = noBlock ∨ (m.blocks.size : Int) ≤ m.entry then .error (.noEntry m.method)
  else m.verifyBlocks #[] m.blocks.toList

end Module
end Bytelift.Ir
