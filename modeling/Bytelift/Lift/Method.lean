import Bytelift.Lift.Instruction
import Bytelift.Lift.Landingpad

/-!
# Lifting methods

A method is lifted from its first block on. Handlers are reached through landingpads only, and their
code may hold further throwing sites, so blocks and landingpads are made in turn until there is
nothing left. Blocks that control never reaches are marked as such.
-/

namespace Bytelift.Lift

open Ir

namespace Context

/-- The types of the parameters, the receiver first. -/
def params (cx : Context) : List Ty :=
  (if cx.method.isStatic then [] else [.ref]) ++ cx.type.params.map fun p => Ty.ofKind p.kind

/-- Stores parameters from number `index` on into the local variables from `slot` on. -/
def storeParams (entry : BlockId) : (index slot : Nat) → List Ty → LiftM Unit
  | _, _, [] => pure ()
  | index, slot, ty :: tys => do
    let v ← emitIn entry { op := .param, ty := ty, imm := Int64.ofNat index, bci := -1 }
    let _ ← emitIn entry { op := .storeSlot, slot := ⟨.local, slot⟩, args := [v], bci := -1 }
    storeParams entry (index + 1) (slot + if ty.isWide then 2 else 1) tys

def liftInstructions (cx : Context) (insts : List Instruction) : LiftM Unit :=
  insts.forM fun i => do
    modifyCursor fun c => { c with bci := i.bci }
    refuseIf (!cx.allow.all (·.contains i.op)) i.bci (.notAllowed i.op)
    cx.lift i

/-- Lets control fall into the next block. -/
def fallThrough (cx : Context) (b : CodeBlock) : LiftM Unit := do
  let record : Record := .loweredBlock b.start b.stop (← get).cursor.stack.length
  let target ← tryCatch (cx.edge ((b.fall.map Int.ofNat).getD (-1))) fun e => do
    cx.trace record
    throw e
  cx.spill
  cx.terminate (.fallthrough target)
  cx.trace record

def liftBlock (cx : Context) (b : CodeBlock) (e : Entry) : LiftM Unit := do
  modifyCursor fun _ => { owner := e.owner, block := cx.blockOf b.start, bci := b.start }
  cx.reload e.shape
  cx.liftInstructions b.insts
  if (← get).cursor.done then pure () else cx.fallThrough b

def liftAt (cx : Context) (bci : Int) (e : Entry) : LiftM Unit := do
  let b ← require (cx.partition.blockAt? bci)
  cx.liftBlock b e

/-- Lifts blocks and builds landingpads in turn, for at most the given number of rounds. The first `n`
scheduled blocks have been lifted. -/
def liftAll (cx : Context) : (rounds n : Nat) → LiftM Unit
  | 0, _ => pure ()
  | rounds + 1, n => do
    let s ← get
    match s.entries[n]?, s.sites with
    | some (bci, e), _ =>
      cx.liftAt bci e
      liftAll cx rounds (n + 1)
    | none, [] => pure ()
    | none, sites =>
      set { s with sites := [] }
      sites.forM cx.attachPad
      liftAll cx rounds n

/-- Creates the blocks of the module: one for the parameters and one for each bytecode block. -/
def createBlocks (cx : Context) : LiftM BlockId := do
  let entry ← newBlock "entry" (-1) .entry
  cx.partition.blocks.forM fun b => do
    let id ← newBlock (bciLabel b.start []) b.start .code
    changeBlock id fun k => { k with stop := b.stop }
  return entry

/-- Marks the blocks that were never scheduled. -/
def markUnreachable (cx : Context) : LiftM Unit := do
  let s ← get
  cx.partition.blocks.forM fun b =>
    if (s.entries.lookup (b.start : Int)).isNone then setTerm (cx.blockOf b.start) .unreachable else pure ()

/-- Sets the module up: its header, its cleanup regions, its blocks and the code that stores the
parameters. Control starts at bci 0. -/
def openModule (cx : Context) : LiftM Unit := do
  modifyModule fun m => { m with result := cx.result, numLocals := cx.method.maxLocals }
  cx.buildRegions
  let entry ← cx.createBlocks
  modifyModule fun m => { m with entry := entry, params := cx.params }
  storeParams entry 0 0 cx.params
  setTerm entry (.fallthrough (cx.blockOf 0))
  cx.enqueue 0 [] []

/-- Completes what can only be known once everything is lifted. -/
def closeModule (cx : Context) : LiftM Unit := do
  cx.markUnreachable
  finishCleanups
  let maxStack := (← get).maxStack
  modifyModule fun m => { m with numStack := maxStack }

/-- Builds the module. A round lifts one block or attaches all waiting sites, so twice the number of
blocks is enough. -/
def build (cx : Context) : LiftM Unit := do
  cx.openModule
  cx.liftAll (2 * cx.partition.blocks.length + 3) 0
  cx.closeModule

/-- Lifts the whole method. -/
def liftBody (cx : Context) : LiftM Module := do
  cx.build
  match (← get).builder.freeze.1 with
  | .ok m => return m
  | .error e => failAt (-1) (.unverified e)

end Context

/-- The context of a lifting, or why there is none. -/
def context (m : Method) (s : Settings) : Except Bailout Context :=
  match MethodType.parse m.desc with
  | .error e => .error { bci := -1, reason := .descriptor m.desc e }
  | .ok type =>
    match Partition.ofMethod m with
    | .error e => .error e
    | .ok partition =>
      .ok ⟨m, type, partition, s.allowSet, s.elideGuards, s.nestingLimit, s.debugLogs⟩

/-- The outcome of a lifting with its records in order. -/
structure Outcome where
  result : Except Bailout Module
  records : List Record

/-- The outcome without the closing records; the records are the latest first. -/
def attempt (m : Method) (s : Settings) : Except Bailout Module × List Record :=
  match context m s with
  | .error e => (.error e, [])
  | .ok cx =>
    let (result, final) := cx.liftBody.run { builder := Builder.new m.key }
    (result, final.records)

def method (m : Method) (s : Settings) : Outcome :=
  match attempt m s with
  | (.error e, records) =>
    let e := { e with method := m.key }
    ⟨.error e, (.bailedOut e :: records).reverse⟩
  | (.ok mod, records) =>
    let listing : List Record := if s.dumpIr then [.listing mod.dump] else []
    let finished : Record :=
      .finished mod.blocks.size mod.insts.size mod.landingpads.length
    ⟨.ok mod, records.reverse ++ listing ++ [finished]⟩

end Lift

def liftMethod (m : Method) (s : Settings) : Except Bailout Ir.Module := (Lift.method m s).result

end Bytelift
