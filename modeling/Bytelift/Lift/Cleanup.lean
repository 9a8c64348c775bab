import Bytelift.Lift.State

/-!
# Cleanup regions

Cleanup code runs whenever control leaves its region: by a jump, by a return or by an exception. The
code exists once. Whoever enters it stores in the selector of the region where to go on, and the
`endfinally` of the region switches on the selector.

A jump or return that leaves regions goes through one block for each of them. The keys of the
selectors are handed out as exits are found, so the switches are filled in at the end.
-/

namespace Bytelift.Lift

open Ir

def selectorName (handler : Int) : Text := "finally_" ++ Text.ofInt handler ++ "_sel"

/-- The regions of an exception table, in the order of their first rows. -/
def addRow (regions : List Region) (selector : Slot) (e : ExceptionEntry) : List Region :=
  if regions.any (·.handler = e.handler) then
    regions.map fun r => if r.handler = e.handler then { r with rows := r.rows ++ [e] } else r
  else regions ++ [{ handler := e.handler, rows := [e], selector := selector }]

/-- Sets up the cleanup regions of the method. -/
def Context.buildRegions (cx : Context) : LiftM Unit :=
  (cx.table.filter (·.isCleanup)).forM fun e => do
    let selector ← temp (selectorName e.handler)
    modify fun s => { s with regions := addRow s.regions selector e }

/-- Whether a transfer of control leaves a region: the region protects its source and not its
destination. A return leaves every region that protects it. -/
def Region.isLeft (r : Region) (source : Int) (exit : Exit) : Bool :=
  r.covers source && match exit with
    | .ret => true
    | .jump target => !r.covers target

/-- The regions that a transfer of control leaves. -/
def exitedRegions (regions : List Region) (source : Int) (exit : Exit) : List Region :=
  regions.filter (·.isLeft source exit)

/-- The key under which a region goes on at a block, which is new if the block is. -/
def addExit (handler : Int) (next : BlockId) : LiftM Nat := do
  let r ← regionOf handler
  match r.exits.idxOf? next with
  | some key => return key
  | none =>
    modifyRegion handler fun r => { r with exits := r.exits ++ [next] }
    return r.exits.length

/-- The owner of cleanup code that is first entered from code with the given owner. A region that the
cleanup code itself protects is left out. -/
def outerOwner (r : Region) (owner : Owner) : Owner := owner.dropWhile r.covers

/-- The owner of a handler that is reached from code with the given owner. Rows that protect cleanup
code catch outside of it. -/
def handlerOwner (owner : Owner) (e : ExceptionEntry) : Owner := owner.dropWhile e.covers

namespace Context

/-- Schedules the code of a region that is entered from code with the given owner. -/
def enter (cx : Context) (handler : Int) (owner : Owner) : LiftM Unit := do
  let r ← regionOf handler
  let outer := r.outer.getD (outerOwner r owner)
  modifyRegion handler fun r => { r with outer := some outer }
  cx.enqueue handler [] (handler :: outer)

/-- Makes a block at `bci` select an exit of a region and enter its code. -/
def routeThrough (cx : Context) (b : BlockId) (bci : Int) (handler : Int) (next : BlockId)
    (owner : Owner) : LiftM Unit := do
  let key ← addExit handler next
  let r ← regionOf handler
  let k ← emitIn b { op := .const, ty := .i32, imm := Int64.ofNat key, bci := bci }
  let _ ← emitIn b { op := .storeSlot, slot := r.selector, args := [k], bci := bci }
  setTerm b (.goto (cx.blockOf handler))
  cx.enter handler owner

/-- The name of the slot of a return value on its way through cleanup code. -/
def resultName : Text := "ret"

/-- Makes a block return what the slot holds, or nothing if the method is void. -/
def fillReturn (cx : Context) (b : BlockId) (slot : Slot) : LiftM Unit :=
  if cx.result = .void then setTerm b (.ret noValue)
  else do
    let v ← emitIn b { op := .loadSlot, ty := cx.result, slot := slot, bci := -1 }
    setTerm b (.ret v)

/-- The block that returns behind cleanup code. -/
def sharedReturn (cx : Context) : LiftM BlockId := do
  match (← get).returnBlock with
  | some b => return b
  | none =>
    let slot ← temp resultName
    let b ← newBlock "method_return" (-1) .return
    modify fun s => { s with returnBlock := some b }
    cx.fillReturn b slot
    return b

/-- The block that runs the given regions in order and then takes an exit. -/
def leaveThrough (cx : Context) (source : Int) (exit : Exit) (owner : Owner) :
    List Int → LiftM BlockId
  | [] =>
    match exit with
    | .ret => cx.sharedReturn
    | .jump target => do
      cx.enqueue target [] owner
      return cx.blockOf target
  | handler :: rest => do
    match (← get).leaves.lookup (handler :: rest, exit) with
    | some b => return b
    | none =>
      let b ← newBlock (bciLabel source "_leave") source .leave
      modify fun s => { s with leaves := s.leaves ++ [((handler :: rest, exit), b)] }
      let next ← leaveThrough cx source exit owner rest
      cx.routeThrough b source handler next owner
      return b

/-- The block that leaves the given regions. -/
def leave (cx : Context) (source : Int) (regions : List Region) (exit : Exit) (owner : Owner) :
    LiftM BlockId := do
  refuseIf (cx.nestingLimit < regions.length) source
    (.nestedCleanups regions.length cx.nestingLimit)
  cx.leaveThrough source exit owner (regions.map (·.handler))

/-- The block for a transfer of control from the current bci to another one. -/
def edge (cx : Context) (target : Int) : LiftM BlockId := do
  let s ← get
  let c := s.cursor
  match exitedRegions s.regions c.bci (.jump target) with
  | [] =>
    cx.enqueue target (← stackShape) c.owner
    return cx.blockOf target
  | regions =>
    refuseHereIf (0 < c.stack.length) (.leavingStack c.stack.length)
    cx.leave c.bci regions (.jump target) c.owner

/-- Keeps a return value while cleanup code runs. -/
def saveResult (cx : Context) (v : ValueId) : LiftM Unit :=
  if v = noValue then pure ()
  else do
    let slot ← temp resultName
    cx.store slot v

/-- Returns a value, or nothing with `noValue`. -/
def exitMethod (cx : Context) (v : ValueId) : LiftM Unit := do
  let s ← get
  let c := s.cursor
  match exitedRegions s.regions c.bci .ret with
  | [] => cx.terminate (.ret v)
  | regions =>
    cx.saveResult v
    let b ← cx.leave c.bci regions .ret c.owner
    cx.terminate (.goto b)

/-- Ends cleanup code. -/
def endCleanup (cx : Context) : LiftM Unit := do
  let s ← get
  match s.cursor.owner with
  | [] => failHere .endOutsideCleanup
  | handler :: _ =>
    let r ← regionOf handler
    let v ← cx.load r.selector .i32
    modifyCursor fun c => { c with stack := [] }
    cx.terminate (.switch v noBlock [])
    let b := (← get).cursor.block
    modifyRegion handler fun r => { r with ends := r.ends ++ [(b, v)] }

end Context

def Region.cases (r : Region) : List SwitchCase :=
  r.exits.zipIdx.map fun (b, key) => ⟨key, b⟩

/-- Fills in the switches at the ends of cleanup code. -/
def finishCleanups : LiftM Unit := do
  (← get).regions.forM fun r => r.ends.forM fun (b, v) => setTerm b (.switch v noBlock r.cases)

end Bytelift.Lift
