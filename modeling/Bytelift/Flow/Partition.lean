import Bytelift.Flow.HandlerTable
import Bytelift.Ir.Summary

/-!
# Basic blocks of bytecode

The instructions of a method are split into blocks. A block begins at bci 0, at every destination of a
branch or switch, behind every instruction that transfers control, behind every call in a protected
range, and at every start, end and handler of the exception table. So control enters a block only at
its start, and the same rows of the exception table cover all of it.
-/

namespace Bytelift

/-- A run of instructions that control enters at the start only. -/
structure CodeBlock where
  start : Nat
  stop : Nat
  /-- The position of the first instruction in the code. -/
  first : Nat
  insts : List Instruction
  /-- The starts of the blocks that can follow; the block behind this one comes last. -/
  succs : List Int
  /-- The start of the block behind this one, if control can fall into it. -/
  fall : Option Nat
  deriving DecidableEq, Repr

namespace CodeBlock

/-- The position of the last instruction in the code. -/
def last (b : CodeBlock) : Nat := b.first + b.insts.length - 1

def summary (b : CodeBlock) : Text :=
  let fall : Text := match b.fall with
    | none => "-1"
    | some n => Text.ofNat n
  List.flatten ["[", Text.ofNat b.start, ",", Text.ofNat b.stop, ") insts ", Text.ofNat b.first, "-",
    Text.ofNat b.last, " succs ", Ir.idsText b.succs, " fall ", fall]

end CodeBlock

/-- A set of bcis, with a bit for each. -/
abbrev Bitmap := Array UInt8

namespace Bitmap

/-- The empty set for code of the given length. One byte is to spare. -/
def new (codeLength : Nat) : Bitmap := .replicate (codeLength / 8 + 1) 0

/-- Adds a bci; it has to lie in the code. -/
def mark (bits : Bitmap) (bci : Nat) : Bitmap :=
  bits.setIfInBounds (bci / 8) (bits.getD (bci / 8) 0 ||| 1 <<< (bci % 8).toUInt8)

/-- Whether a bci is in the set. -/
def isSet (bits : Bitmap) (bci : Int) : Bool :=
  if bci < 0 ∨ bits.size ≤ bci / 8 then false
  else bits.getD (bci / 8).toNat 0 >>> (bci % 8).toNat.toUInt8 &&& 1 == 1

/-- The bcis of instructions. -/
def ofInstructions (codeLength : Nat) (insts : List Instruction) : Bitmap :=
  insts.foldl (fun bits i => bits.mark i.bci) (new codeLength)

end Bitmap

/-- The blocks of a method. -/
structure Partition where
  blocks : List CodeBlock
  insts : List Instruction
  /-- The bcis at which instructions start. -/
  starts : Bitmap
  deriving DecidableEq, Repr

namespace Partition

/-- The block that starts at a bci. -/
def blockAt? (p : Partition) (bci : Int) : Option CodeBlock :=
  p.blocks.find? fun b => (b.start : Int) = bci

/-- Halves the range from `i` to `j` until one number is left: the first in it for which a test holds, if the test holds for all
numbers behind it too, and `j` if there is none. -/
def search (test : Nat → Bool) (i j : Nat) : Nat :=
  if i < j then
    let mid := (i + j) / 2
    if test mid then search test i mid else search test (mid + 1) j
  else i
termination_by j - i

/-- The block that holds a bci: of those that end behind it the first, if it does not start behind it too. -/
def containing? (p : Partition) (bci : Int) : Option CodeBlock :=
  let i := search (fun i => p.blocks[i]?.any fun b => bci < b.stop) 0 p.blocks.length
  p.blocks[i]?.filter fun b => b.start ≤ bci

/-- Whether an instruction starts at a bci. -/
def isInstructionStart (p : Partition) (bci : Int) : Bool := p.starts.isSet bci

/-- Whether a block ends behind an instruction. -/
def splitsAfter (table : HandlerTable) (i : Instruction) : Bool :=
  i.op.isBranch || i.op.isSwitch || i.op.endsBlock || (i.op.isInvoke && table.isProtected i.bci)

/-- The bcis that a row of the exception table makes block starts. -/
def entryLeaders (codeLength : Nat) (e : ExceptionEntry) : List Int :=
  if e.stop < codeLength then [e.start, e.handler, e.stop] else [e.start, e.handler]

/-- The bcis that an instruction makes block starts. -/
def instructionLeaders (codeLength : Nat) (table : HandlerTable) (i : Instruction) : List Int :=
  if splitsAfter table i && i.next < codeLength then (i.next : Int) :: i.targets else i.targets

/-- The block starts. -/
def leaders (codeLength : Nat) (table : HandlerTable) (insts : List Instruction) : List Int :=
  0 :: table.flatMap (entryLeaders codeLength) ++ insts.flatMap (instructionLeaders codeLength table)

/-- Adds a block start to others, which are in ascending order. -/
def addLeader (x : Int) : List Int → List Int
  | [] => [x]
  | y :: ys => if x < y then x :: y :: ys else if x = y then y :: ys else y :: addLeader x ys

/-- The block starts in ascending order. -/
def sortedLeaders (codeLength : Nat) (table : HandlerTable) (insts : List Instruction) : List Int :=
  (leaders codeLength table insts).foldr addLeader []

/-- The first instruction with a destination inside an instruction or outside the code. -/
def targetFault? (starts : Bitmap) (insts : List Instruction) : Option Bailout :=
  insts.findSome? fun i =>
    (i.targets.find? fun t => !starts.isSet t).map fun t =>
      { bci := i.bci, reason := .branchTarget i.op t }

/-- The blocks between block starts in ascending order, with a cursor in the instructions: the position of one, and the instructions
from there on. The cursor stays at the last instruction of a block until the next block is at hand. -/
def walk (codeLength : Nat) : List Int → (pos : Nat) → List Instruction → List CodeBlock
  | [], _, _ => []
  | start :: starts, pos, rest =>
    let stop := starts.headD codeLength
    let passed := (rest.takeWhile fun i => (i.bci : Int) < start).length
    match rest.drop passed with
    | [] => []
    | i :: is =>
      let more := is.takeWhile fun i => (i.bci : Int) < stop
      ⟨start.toNat, stop.toNat, pos + passed, i :: more, [], none⟩ ::
        walk codeLength starts (pos + passed + more.length) ((i :: is).drop more.length)

/-- Enters where control goes from a block. -/
def link (codeLength : Nat) (b : CodeBlock) : Except Bailout CodeBlock :=
  match b.insts.getLast? with
  | none => .ok b
  | some last =>
    if last.op.endsBlock then .ok { b with succs := last.targets, fall := none }
    else if codeLength ≤ b.stop then .error { bci := last.bci, reason := .fallsOff }
    else .ok { b with succs := last.targets ++ [(b.stop : Int)], fall := some b.stop }

/-- Splits the instructions of a method into blocks. -/
def ofInstructions (codeLength : Nat) (table : HandlerTable) (insts : List Instruction) :
    Except Bailout Partition :=
  if insts.isEmpty then .error { bci := 0, reason := .emptyCode }
  else
    let starts := Bitmap.ofInstructions codeLength insts
    match table.fault? codeLength starts.isSet with
    | some e => .error e
    | none =>
      match targetFault? starts insts with
      | some e => .error e
      | none =>
        match (walk codeLength (sortedLeaders codeLength table insts) 0 insts).mapM (link codeLength) with
        | .error e => .error e
        | .ok blocks => .ok ⟨blocks, insts, starts⟩

/-- Splits a method into blocks. -/
def ofMethod (m : Method) : Except Bailout Partition :=
  match m.instructions with
  | .error e => .error { bci := -1, reason := .undecodable e }
  | .ok insts => ofInstructions m.code.length m.exceptions insts

end Partition
end Bytelift
