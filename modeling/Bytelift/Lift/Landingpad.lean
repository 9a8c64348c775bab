import Bytelift.Lift.Cleanup

/-!
# Landingpads

The unwind destination of a throwing bci tries the rows that cover the bci in table order. A catch
tests the class of the exception, a catch of everything ends the chain, and a cleanup region runs its
code and goes on with the next step. An exception that no row catches is passed on to the caller.
-/

namespace Bytelift.Lift

open Ir

def caughtName (bci : Int) : Text := "exc_" ++ Text.ofInt bci

/-- A step of a landingpad: the row that it tries, and its block. -/
structure PadStep where
  row : ExceptionEntry
  block : BlockId
  deriving DecidableEq, Repr

/-- Whether a row belongs to a region that an earlier step runs. -/
def isRepeated (steps : List PadStep) (e : ExceptionEntry) : Bool :=
  e.isCleanup && steps.any fun s => s.row.isCleanup && s.row.handler = e.handler

/-- Creates the blocks of the steps for the given rows, after the steps so far. Also tells whether the
last step catches everything. -/
def padSteps (bci : Int) : List ExceptionEntry → List PadStep → LiftM (List PadStep × Bool)
  | [], steps => return (steps, false)
  | e :: rows, steps =>
    if isRepeated steps e then padSteps bci rows steps
    else do
      let suffix : Text := if e.isCleanup then "_cleanup_" else "_catch_"
      let b ← newBlock (bciLabel bci (suffix ++ Text.ofNat steps.length)) bci .dispatch
      let steps := steps ++ [⟨e, b⟩]
      if !e.isCleanup && e.catchesAny then return (steps, true)
      else padSteps bci rows steps

namespace Context

/-- Fills the block of a step and returns its clause. `next` is the block of the next step. -/
def padStep (cx : Context) (bci : Int) (caught : Slot) (owner : Owner) (step : PadStep)
    (next : BlockId) : LiftM Clause := do
  let e := step.row
  let handler := cx.blockOf e.handler
  if e.isCleanup then
    cx.routeThrough step.block bci e.handler next owner
    return .cleanup handler
  else
    cx.enqueue e.handler [.ref] (handlerOwner owner e)
    let v ← emitIn step.block { op := .loadSlot, ty := .ref, slot := caught, bci := bci }
    let _ ← emitIn step.block { op := .storeSlot, slot := ⟨.stack, 0⟩, args := [v], bci := bci }
    if e.catchesAny then
      setTerm step.block (.goto handler)
      return .catchAny handler
    else
      let hit ← emitIn step.block
        { op := .instanceOf, ty := .i1, sym := e.catchType, args := [v], bci := bci }
      setTerm step.block (.condBr hit handler next)
      return .catch e.catchType handler

/-- Fills the blocks of the steps, the last of which is followed by `tail`. -/
def fillSteps (cx : Context) (bci : Int) (caught : Slot) (owner : Owner) (tail : BlockId) :
    List PadStep → LiftM (List Clause)
  | [] => return []
  | step :: rest => do
    let next := (rest.head?.map (·.block)).getD tail
    let clause ← cx.padStep bci caught owner step next
    let clauses ← fillSteps cx bci caught owner tail rest
    return clause :: clauses

/-- The block that passes a caught exception on. -/
def resumeBlock (bci : Int) (caught : Slot) : LiftM BlockId := do
  let b ← newBlock (bciLabel bci "_resume") bci .resume
  let v ← emitIn b { op := .loadSlot, ty := .ref, slot := caught, bci := bci }
  setTerm b (.resume v)
  return b

/-- The block behind the last step of a landingpad, which is none if that step catches everything. -/
def padTail (bci : Int) (caught : Slot) (catchesAll : Bool) : LiftM BlockId :=
  if catchesAll then pure noBlock else resumeBlock bci caught

/-- Builds the landingpad of a bci for a site with the given owner. -/
def buildPad (cx : Context) (bci : Int) (owner : Owner) : LiftM BlockId := do
  let pad ← newBlock (bciLabel bci "_unwind_dest") bci .landingpad
  let caught ← temp (caughtName bci)
  let token ← emitIn pad { op := .landingpad, ty := .token, bci := bci }
  let exc ← emitIn pad { op := .exception, ty := .ref, args := [token], bci := bci }
  let _ ← emitIn pad { op := .storeSlot, slot := caught, args := [exc], bci := bci }
  let (steps, catchesAll) ← padSteps bci (cx.table.covering bci) []
  let cleanups := steps.countP (·.row.isCleanup)
  refuseIf (cx.nestingLimit < cleanups) bci (.unwindCleanups cleanups cx.nestingLimit)
  let tail ← padTail bci caught catchesAll
  setTerm pad (.goto ((steps.head?.map (·.block)).getD tail))
  let cleanup := 0 < cleanups || !catchesAll
  let record : Record := .builtPad bci steps.length cleanup
  let clauses ← tryCatch (cx.fillSteps bci caught owner tail steps) fun e => do
    cx.trace record
    throw e
  needStack 1
  changeBlock pad fun b => { b with pad := some ⟨bci, clauses, cleanup⟩ }
  cx.trace record
  return pad

/-- The landingpad of a bci, which is built for its first site. -/
def padOf (cx : Context) (site : Site) : LiftM BlockId := do
  match (← get).pads.lookup site.bci with
  | some pad => return pad
  | none =>
    let pad ← cx.buildPad site.bci site.owner
    modify fun s => { s with pads := s.pads ++ [(site.bci, pad)] }
    return pad

/-- Gives a site the landingpad of its bci. -/
def attachPad (cx : Context) (site : Site) : LiftM Unit := do
  let pad ← cx.padOf site
  changeBlock site.block fun b => { b with term := b.term.withUnwind pad }

end Context
end Bytelift.Lift
