import Bytelift.Machine.Effect

/-!
# Running modules

An activation of a module has a frame: slots for local variables, stack entries and temporaries, and
the value of each instruction. The machine executes block after block. A fault of the last instruction
of a block that may unwind goes to the landingpad; every other fault leaves the activation.

Instructions are executed relative to a way of calling methods. `invoke` ties the knot: the calls made
by a method of nesting level `n + 1` are at level `n`, and at level zero the stack overflows.
-/

namespace Bytelift.Machine

open Ir

/-- A way of calling the method under a symbol. -/
abbrev Caller := Text → List Value → RunM Value

structure Frame where
  args : List Value
  locals : Array Value
  stack : Array Value
  temps : Array Value
  values : Array Value
  /-- The exception on its way to a landingpad. -/
  inflight : Option Ref := none
  deriving DecidableEq, Repr

namespace Frame

def area (f : Frame) : SlotSpace → Array Value
  | .local => f.locals
  | .stack => f.stack
  | .temp => f.temps

def setArea (f : Frame) (space : SlotSpace) (a : Array Value) : Frame :=
  match space with
  | .local => { f with locals := a }
  | .stack => { f with stack := a }
  | .temp => { f with temps := a }

/-- The value in a slot; zero behind the end of the area, nothing before its start. -/
def read? (f : Frame) (s : Slot) : Option Value :=
  if 0 ≤ s.index then some ((f.area s.space)[s.index.toNat]?.getD {}) else none

/-- Sets a slot. The area grows to hold it. -/
def write? (f : Frame) (s : Slot) (v : Value) : Option Frame :=
  if 0 ≤ s.index then
    let a := f.area s.space
    let n := s.index.toNat
    let a := if n < a.size then a else a ++ Array.replicate (n + 1 - a.size) ({} : Value)
    some (f.setArea s.space (a.setIfInBounds n v))
  else none

def value (f : Frame) (v : ValueId) : RunM Value := need (lookup? f.values v)

def define (f : Frame) (i : Inst) (v : Value) : Frame :=
  { f with values := f.values.setIfInBounds i.id.toNat v }

/-- The operand of an instruction at a position. -/
def arg (f : Frame) (i : Inst) (n : Nat) : RunM Value := do
  let v ← need i.args[n]?
  f.value v

end Frame

/-! ## Instructions -/

/-- The symbol that a call goes to. -/
def calleeOf (f : Frame) (i : Inst) (c : CallSite) : RunM Text :=
  if c.dispatch.isBound then pure i.sym
  else do
    let slot ← f.value c.slot
    return slot.sym

/-- The receiver of a call, if it has one. -/
def receiverOf (f : Frame) (c : CallSite) : RunM (List Value) :=
  if c.receiver = noValue then pure []
  else do
    let v ← f.value c.receiver
    return [v]

def execCall (call : Caller) (f : Frame) (i : Inst) : RunM Value := do
  let c ← need i.call
  let key ← calleeOf f i c
  let receiver ← receiverOf f c
  let args ← c.args.mapM f.value
  call key (receiver ++ args)

def exec (call : Caller) (mod : Module) (i : Inst) (f : Frame) : RunM Frame := do
  match i.op with
  | .param =>
    let v ← need (lookup? f.args.toArray i.imm.toInt)
    return f.define i v
  | .const => return f.define i { i := i.imm, f := i.fimm }
  | .constNull => return f.define i {}
  | .constString =>
    let r ← intern i.sym
    return f.define i (.ofRef r)
  | .loadSlot =>
    let v ← need (f.read? i.slot)
    return f.define i v
  | .storeSlot =>
    let v ← f.arg i 0
    need (f.write? i.slot v)
  | .add | .sub | .mul | .div | .rem | .shl | .shr | .ushr | .and | .or | .xor =>
    let a ← f.arg i 0
    let b ← f.arg i 1
    let v ← compute i.op i.ty a b
    return f.define i v
  | .neg =>
    let a ← f.arg i 0
    return f.define i (negate i.ty a)
  | .sext | .trunc | .i2b | .i2c | .i2s | .itof | .ftoi | .fext | .ftrunc =>
    let a ← f.arg i 0
    return f.define i (convert i.op i.ty a)
  | .cmp =>
    let a ← f.arg i 0
    let b ← f.arg i 1
    return f.define i (.ofInt (compareInts a.i b.i))
  | .fcmp =>
    let a ← f.arg i 0
    let b ← f.arg i 1
    return f.define i (.ofInt (compareFloats i.imm a.f b.f))
  | .icmp =>
    let a ← f.arg i 0
    let b ← f.arg i 1
    let first ← need ((i.args[0]?).bind mod.inst?)
    let v ← compareBy (first.ty = .ref) (predicate? i.imm.toInt) a b
    return f.define i v
  | .checkNull =>
    let v ← f.arg i 0
    checkNull v
    return f
  | .checkBounds =>
    let arr ← f.arg i 0
    let index ← f.arg i 1
    checkBounds arr index
    return f
  | .checkDivZero =>
    let v ← f.arg i 0
    checkDivZero v
    return f
  | .checkNonNeg =>
    let v ← f.arg i 0
    checkNonNeg v
    return f
  | .checkCast =>
    let v ← f.arg i 0
    checkCast v i.sym
    return f
  | .instanceOf =>
    let v ← f.arg i 0
    let r ← instanceOf v i.sym
    return f.define i r
  | .allocObject =>
    let site ← need i.alloc
    let r ← alloc { cls := site.cls }
    return f.define i (.ofRef r)
  | .allocArray =>
    let n ← f.arg i 0
    let site ← need i.alloc
    let r ← allocArray mod.method site.cls site.elem n
    return f.define i (.ofRef r)
  | .arrayFill =>
    let arr ← f.arg i 0
    let v ← f.arg i 1
    fillArray arr v
    return f
  | .arrayLength =>
    let arr ← f.arg i 0
    let v ← arrayLength arr
    return f.define i v
  | .loadElem =>
    let arr ← f.arg i 0
    let index ← f.arg i 1
    let v ← element arr index.int32.toInt
    return f.define i v
  | .storeElem =>
    let arr ← f.arg i 0
    let index ← f.arg i 1
    let v ← f.arg i 2
    setElement arr index.int32.toInt (v.narrow (Kind.ofCode? i.imm.toUInt64.toUInt8.toNat))
    return f
  | .loadField =>
    let obj ← f.arg i 0
    let v ← loadField obj i.sym
    return f.define i v
  | .storeField =>
    let obj ← f.arg i 0
    let v ← f.arg i 1
    storeField obj i.sym v
    return f
  | .loadStatic =>
    let v ← loadStatic i.sym
    return f.define i v
  | .storeStatic =>
    let v ← f.arg i 0
    storeStatic i.sym v
    return f
  | .loadKlass =>
    let obj ← f.arg i 0
    let cls ← classOf obj
    return f.define i { sym := cls }
  | .lookupVirtual | .lookupInterface =>
    let cls ← f.arg i 0
    let key ← lookupMethod (i.op = .lookupInterface) i.sym cls.sym
    return f.define i { sym := key }
  | .call =>
    let v ← execCall call f i
    return if i.hasResult then f.define i v else f
  | .landingpad =>
    failIf (f.inflight.isNone) (.noException mod.method)
    return f
  | .exception => return f.define i { ref := f.inflight }
  | .unknown _ => throw .stuck

/-! ## Blocks -/

/-- What follows a block. -/
inductive Next
  | jump (target : BlockId) (f : Frame)
  | done (v : Value)

/-- The object that is raised by throwing a value: a new exception for a null reference. -/
def thrownObject (v : Value) : RunM Ref :=
  match v.ref with
  | some r => pure r
  | none => alloc { cls := nullPointerClass }

def execTerm (mod : Module) (b : Block) (f : Frame) : RunM Next := do
  match b.term with
  | .goto t | .fallthrough t | .mayUnwind t _ => return .jump t f
  | .condBr v t e =>
    let c ← f.value v
    return .jump (if c.i ≠ 0 then t else e) f
  | .switch v fallback cases =>
    let key ← f.value v
    match cases.find? (·.key = key.int32.toInt) with
    | some c => return .jump c.target f
    | none =>
      if fallback = noBlock then fail (.noCase mod.method b.label key.int32.toInt)
      else return .jump fallback f
  | .ret v =>
    if v = noValue then return .done {}
    else
      let r ← f.value v
      return .done r
  | .throw v unwind =>
    let obj ← f.value v
    let r ← thrownObject obj
    if unwind ≠ noBlock then return .jump unwind { f with inflight := some r }
    else throw (.thrown (some r))
  | .resume v =>
    let obj ← f.value v
    throw (.thrown obj.ref)
  | .unreachable => fail (.noTerminator mod.method b.label true)
  | .none | .unknown _ => fail (.noTerminator mod.method b.label false)

/-- Whether a fault of an instruction of a block goes to a landingpad. -/
def unwindsAt (b : Block) (id : ValueId) : Bool :=
  match b.term with
  | .mayUnwind _ u => id = b.last && u ≠ noBlock
  | _ => false

/-- Executes the given instructions of a block and its terminator. -/
def execFrom (call : Caller) (mod : Module) (b : Block) : List ValueId → Frame → RunM Next
  | [], f => execTerm mod b f
  | id :: ids, f => do
    let i ← need (mod.inst? id)
    modify fun s => { s with meter := s.meter.countInst }
    match ← attempt (exec call mod i f) with
    | .ok f => execFrom call mod b ids f
    | .error (.thrown obj) =>
      if unwindsAt b id then return .jump b.term.unwind { f with inflight := obj }
      else throw (.thrown obj)
    | .error e => throw e

/-- Notes that a block is entered, if the budget allows it. -/
def enterBlock (b : Block) : RunM Unit := do
  let s ← get
  set { s with meter := (s.meter.enter b.label).1 }
  if (s.meter.enter b.label).2 then pure () else throw .outOfBudget

def execBlock (call : Caller) (mod : Module) (id : BlockId) (f : Frame) : RunM Next := do
  let b ← need (mod.block? id)
  enterBlock b
  execFrom call mod b b.insts.toList f

/-- Executes blocks until the activation ends, but at most the given number of them. -/
def runBlocks (call : Caller) (mod : Module) :
    Nat → BlockId → Frame → State → Except Stop Value × State
  | 0, _, _, s => (.error .outOfBudget, s)
  | n + 1, id, f, s =>
    match (execBlock call mod id f).run s with
    | (.error e, s) => (.error e, s)
    | (.ok (.done v), s) => (.ok v, s)
    | (.ok (.jump id f), s) => runBlocks call mod n id f s

/-- The largest number of slots that an area can be declared with: as many values of forty bytes as the
addresses of 48 bits reach. -/
def mostSlots : Int := (Nat.pow 2 48 / 40 : Nat)

def isSlotCount (n : Int) : Bool := 0 ≤ n && n ≤ mostSlots

/-- The frame of a new activation; `none` if the module declares an area that cannot be. Its slots are
zero, so that an area need not be laid out before something is written into it. -/
def newFrame? (mod : Module) (args : List Value) : Option Frame :=
  if isSlotCount mod.numLocals && isSlotCount mod.numStack then some
    { args := args, locals := #[], stack := #[], temps := #[]
      values := Array.replicate mod.insts.size {} }
  else none

/-- Runs a module. No activation enters more blocks than the budget allows the whole run. -/
def activate (call : Caller) (mod : Module) (args : List Value) : RunM Value := do
  failIf (args.length ≠ mod.params.length) (.arity mod.method mod.params.length args.length)
  let f ← need (newFrame? mod args)
  let s ← get
  runBlocks call mod (s.meter.budget + 1) mod.entry f

/-! ## Calls -/

def Native.run (call : Caller) (n : Native) (args : List Value) : RunM Value := do
  match n with
  | .answer v => v.make
  | .throwNew cls => Machine.throwNew cls
  | .throwArg index =>
    let v ← need (lookup? args.toArray index)
    throw (.thrown v.ref)
  | .fail message => Machine.fail (.native message)
  | .arg index => need (lookup? args.toArray index)
  | .call target => call target args

/-- The module under a symbol, if there is one. -/
def findModule (key : Text) : RunM (Option Module) := do
  let (found, env) := (← get).env.module? key
  modify fun s => { s with env := env }
  match found with
  | .ok m => return m
  | .error b => fail (.bailout b)

/-- Calls the method under a symbol, in which the given number of calls can be nested. A constructor
that does not exist does nothing. -/
def invokeAt : Nat → Caller
  | 0, _, _ => throwNew stackOverflowClass
  | depth + 1, key, args => do
    let s ← get
    match s.env.natives.lookup key with
    | some n =>
      set { s with meter := s.meter.noteCall ⟨key, args, s.heap⟩ }
      n.run (invokeAt depth) args
    | none =>
      match ← findModule key with
      | some mod => activate (invokeAt depth) mod args
      | none =>
        if Text.hasPart ".<init>:" key then return {}
        else fail (.noMethod key)

def invoke (key : Text) (args : List Value) : RunM Value := do
  invokeAt (← get).env.maxDepth.toNat key args

def runModule (mod : Module) (args : List Value) : RunM Value := do
  failIf (!mod.frozen) (.notFrozen mod.method)
  activate (invokeAt (← get).env.maxDepth.toNat) mod args

def moduleOf (key : Text) : RunM Module := do
  match ← findModule key with
  | some m => return m
  | none => fail (.noMethod key)

end Bytelift.Machine
