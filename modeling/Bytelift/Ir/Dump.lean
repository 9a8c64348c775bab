import Bytelift.Ir.Verify

/-!
# Listings of modules

A module as text. Each block is its label, its instructions and its terminator. The clauses of a
landingpad follow the first instruction of its block and are indented further.

The text of a part that refers to something that does not exist is `none`: an instruction or a label
behind a reference other than `noBlock`, the site of an allocation or call that has none.
-/

namespace Bytelift.Ir

/-- Values with commas between them. -/
def valuesText (vs : List ValueId) : Text := Text.join ", " (vs.map valueText)

/-- A label as an operand; `none` in words where there is no such block. -/
def Module.label? (m : Module) (b : BlockId) : Option Text :=
  if b = noBlock ∨ (m.blocks.size : Int) ≤ b then some "none"
  else (m.block? b).map fun k => "%" ++ k.label

def Module.slotName? (m : Module) (s : Slot) : Option Text :=
  match s.space with
  | .local => some ("local." ++ Text.ofInt s.index)
  | .stack => some ("stack." ++ Text.ofInt s.index)
  | .temp =>
    if s.index < m.temps.size then (lookup? m.temps s.index).map fun t => "$" ++ t
    else some ("$" ++ Text.ofInt s.index)

def Module.clauseText? (m : Module) (c : Clause) : Option Text := do
  let target ← m.label? c.target
  match c with
  | .cleanup _ => some ("cleanup label " ++ target)
  | .catchAny _ => some ("catch any label " ++ target)
  | .catch ty _ => some ("catch " ++ ty ++ " label " ++ target)

def callText? (i : Inst) : Option Text := do
  let c ← i.call
  if c.dispatch.isBound then
    some (c.dispatch.name ++ " @" ++ i.sym ++ "(" ++ valuesText i.args ++ ")")
  else
    match i.args with
    | [] => none
    | _ :: rest =>
      some (c.dispatch.name ++ " " ++ valueText c.slot ++ "(" ++ valuesText rest ++ ") ; " ++ i.sym)

/-- What stands behind the operation and type of an instruction. -/
def Module.operandText? (m : Module) (i : Inst) : Option Text :=
  let args := valuesText i.args
  match i.op with
  | .param => some ("#" ++ Text.ofInt i.imm.toInt)
  | .const =>
    some (match i.ty with
      | .f32 | .f64 => Number.floatText i.fimm
      | _ => Text.ofInt i.imm.toInt)
  | .constNull => some "null"
  | .constString => some i.sym.quote
  | .loadSlot => m.slotName? i.slot
  | .storeSlot => (m.slotName? i.slot).map fun s => s ++ ", " ++ args
  | .icmp => some (predicateName i.imm.toInt ++ " " ++ args)
  | .fcmp => some ((if 0 < i.imm.toInt then "g " else "l " : Text) ++ args)
  | .loadElem | .storeElem | .arrayFill =>
    some (Kind.nameOfCode i.imm.toUInt64.toUInt8.toNat ++ " " ++ args)
  | .loadField | .storeField | .loadStatic | .storeStatic | .lookupVirtual | .lookupInterface =>
    some (Text.trimSpace ("@" ++ i.sym ++ " " ++ args))
  | .allocObject => i.alloc.map (·.cls)
  | .allocArray => i.alloc.map fun a => a.kind.name ++ " " ++ a.cls ++ ", " ++ args
  | .checkCast | .instanceOf => some (i.sym ++ " " ++ args)
  | .call => callText? i
  | .landingpad => some []
  | _ => some args

def Module.instText? (m : Module) (i : Inst) : Option Text := do
  let operands ← m.operandText? i
  let head : Text :=
    if i.hasResult then valueText i.id ++ " = " ++ i.op.name ++ " " ++ i.ty.name else i.op.name
  return if operands.isEmpty then head else head ++ " " ++ operands

def Module.termText? (m : Module) (t : Terminator) : Option Text := do
  match t with
  | .goto t => return "br label " ++ (← m.label? t)
  | .fallthrough t => return "fallthrough label " ++ (← m.label? t)
  | .condBr v t e =>
    let t ← m.label? t
    let e ← m.label? e
    return "br i1 " ++ valueText v ++ ", label " ++ t ++ ", label " ++ e
  | .switch v d cases =>
    let arms ← cases.mapM fun c => do
      let t ← m.label? c.target
      return Text.ofInt c.key ++ ": label " ++ t
    let d ← m.label? d
    return "switch i32 " ++ valueText v ++ ", label " ++ d ++ " [" ++ Text.join ", " arms ++ "]"
  | .ret v => return if v = noValue then "ret void" else "ret " ++ m.result.name ++ " " ++ valueText v
  | .throw v u =>
    if u = noBlock then return "throw " ++ valueText v
    else return "throw " ++ valueText v ++ " unwind label " ++ (← m.label? u)
  | .mayUnwind t u =>
    let t ← m.label? t
    let u ← m.label? u
    return "continue label " ++ t ++ " unwind label " ++ u
  | .resume v => return "resume " ++ valueText v
  | .unreachable => return "unreachable"
  | .none | .unknown _ => return "<no terminator>"

def Module.padLines? (m : Module) (pad : Landingpad) : Option (List Text) := do
  let clauses ← pad.clauses.mapM m.clauseText?
  let marks : List Text := if pad.cleanup then ["cleanup"] else []
  return (marks ++ clauses).map fun c => Text.ofString "    " ++ c

def Module.blockLines? (m : Module) (b : Block) : Option (List Text) := do
  let insts ← b.insts.toList.mapM fun id => do
    let i ← m.inst? id
    let t ← m.instText? i
    return Text.ofString "  " ++ t
  let term ← m.termText? b.term
  let body ← match insts, b.pad with
    | first :: rest, some pad => do
      let clauses ← m.padLines? pad
      some (first :: clauses ++ rest)
    | insts, _ => some insts
  return (b.label ++ ":") :: body ++ ["  " ++ term]

def Module.lines? (m : Module) : Option (List Text) := do
  let blocks ← m.blocks.toList.mapM m.blockLines?
  let params := Text.join ", " (m.params.map (·.name))
  let temps : Text :=
    if m.temps.isEmpty then [] else ", temps " ++ Text.join " " m.temps.toList
  let head : Text := "define " ++ m.result.name ++ " @" ++ m.method ++ "(" ++ params ++ ") \x7b"
  let frame : Text :=
    "; locals " ++ Text.ofInt m.numLocals ++ ", stack " ++ Text.ofInt m.numStack ++ temps
  return head :: frame :: blocks.flatten ++ [Text.ofString "\x7d"]

def Module.dump? (m : Module) : Option Text :=
  m.lines?.map fun ls => ls.flatMap fun l => l ++ [10]

/-- The listing of a module without dangling references. -/
def Module.dump (m : Module) : Text := m.dump?.getD []

end Bytelift.Ir
