import Bytelift.Lift.Method
import Bytelift.Proofs.Flow.Blocks
import Bytelift.Proofs.Lift.Growth
import Bytelift.Proofs.Lift.Temps

/-!
# The invariant of a lifting

`Good cx o s` holds of every state between the steps of a lifting. It speaks of each block on its own
(`Lawful`), of the tables of the state, and of what is still open. The parameter `o` is what the step at
hand has taken on and not finished: blocks without a terminator, sites without a landingpad and
landingpads that are not entered into the table.

Everything that is said about a single block or table entry stays true while the state evolves, so that
a step only has to account for what it changes.

Main definitions:
* `Route`: the block through which a transfer of control from a bci goes;
* `Enters`: a block selects an exit of a region and enters its cleanup code;
* `CodeTerm`: how a block of lifted bytecode ends, in terms of the last bytecode instruction;
* `PadOk`: a landingpad tries the rows that cover its bci in order;
* `Good`: the invariant.
-/

namespace Bytelift

/-! ## Exits -/

namespace Instruction

open Opcode

/-- How an instruction that ends a bytecode block passes control on without a fault. A switch starts with
its default. -/
def exits (i : Instruction) : List Lift.Exit :=
  match i.op with
  | .valueReturn _ | .voidReturn => [.ret]
  | .tableswitch | .lookupswitch => i.targets.map .jump
  | .ifZero _ | .ifInt _ | .ifRef _ | .ifNull _ => [.jump (i.targets.headD 0), .jump i.next]
  | .goto | .gotoW => [.jump (i.targets.headD 0)]
  | .jsr | .jsrW | .ret | .athrow | .endfinally => []
  | _ => [.jump i.next]

variable {i : Instruction}

theorem exits_of_goto (h : i.op = .goto ∨ i.op = .gotoW) : i.exits = [.jump (i.targets.headD 0)] := by
  unfold exits
  rcases h with h | h <;> rw [h]

theorem exits_of_falls (h : i.op.falls = true) : i.exits = [.jump i.next] := by
  unfold exits
  split <;> simp_all [falls, isConditional, endsBlock]

theorem exits_of_conditional (h : i.op.isConditional = true) :
    i.exits = [.jump (i.targets.headD 0), .jump i.next] := by
  unfold exits
  unfold isConditional at h
  split at h <;> simp_all

theorem exits_of_switch (h : i.op.isSwitch = true) : i.exits = i.targets.map .jump := by
  unfold exits
  unfold isSwitch at h
  split at h <;> simp_all

theorem exits_of_return (h : i.op.isReturn = true) : i.exits = [.ret] := by
  unfold exits
  unfold isReturn at h
  split at h <;> simp_all

end Instruction

namespace Lift

open Ir

/-- The cleanup regions of an exception table, before any of them has a selector. -/
def cleanups (table : HandlerTable) : List Region :=
  (table.filter (·.isCleanup)).foldl (fun rs e => addRow rs ⟨.temp, 0⟩ e) []

/-- Two regions of the same rows. -/
structure Region.Alike (r r' : Region) : Prop where
  handler : r'.handler = r.handler
  rows : r'.rows = r.rows

/-- The handlers of the cleanup regions that a transfer of control leaves, in order. -/
def leftHandlers (table : HandlerTable) (source : Int) (exit : Exit) : List Int :=
  (exitedRegions (cleanups table) source exit).map (·.handler)

/-! ## Routes -/

/-- The owner consists of regions. -/
def Known (s : State) (owner : Owner) : Prop := ∀ h ∈ owner, ∃ r ∈ s.regions, r.handler = h

/-- Control comes to the block at a bci. -/
def Scheduled (s : State) (bci : Int) : Prop := ∃ e, (bci, e) ∈ s.entries

/-- Control may go to a block: if it is a block of bytecode, the bytecode is scheduled. -/
def Led (cx : Context) (s : State) (x : BlockId) : Prop :=
  ∀ B ∈ cx.partition.blocks, x = cx.blockOf B.start → Scheduled s B.start

/-- A jump may go to a block. -/
structure Aim (cx : Context) (s : State) (x : BlockId) : Prop where
  target : s.mod.Target x
  led : Led cx s x

/-- A block is scheduled with a shape of the stack. -/
def Entered (s : State) (bci : Int) (shape : List Ty) : Prop := ∃ e, (bci, e) ∈ s.entries ∧ e.shape = shape

theorem Entered.scheduled {s : State} {bci : Int} {shape : List Ty} (h : Entered s bci shape) :
    Scheduled s bci := by
  obtain ⟨e, he, -⟩ := h
  exact ⟨e, he⟩

/-- The block at a bci is scheduled, with an owner of which something holds. -/
def Owned (V : Option Int → Prop) (T : Int) (s : State) : Prop :=
  ∃ e, s.entries.lookup T = some e ∧ V e.owner.head?

/-- The block at which an exit ends that leaves no region. Something holds of the owner of its destination. -/
def Arrives (cx : Context) (s : State) (V : Option Int → Prop) : Exit → BlockId → Prop
  | .jump t, b => b = cx.blockOf t ∧ Owned V t s
  | .ret, b => s.returnBlock = some b

/-- The block through which an exit goes that still has to run the given regions. -/
def RouteFrom (cx : Context) (s : State) (V : Option Int → Prop) (exit : Exit) : List Int → BlockId → Prop
  | [], b => Arrives cx s V exit b
  | h :: hs, b => ((h :: hs, exit), b) ∈ s.leaves

/-- The block through which a transfer of control goes from a bci, in code of an owner. A jump that leaves no region
stays in code of the owner. -/
def Route (cx : Context) (s : State) (o : Option Int) (source : Int) (exit : Exit) (b : BlockId) : Prop :=
  RouteFrom cx s (· = o) exit ((exitedRegions s.regions source exit).map (·.handler)) b

/-- A block selects an exit of a region and enters the code of the region. -/
def Enters (cx : Context) (s : State) (kind : BlockKind) (b : BlockId) (handler : Int)
    (next : BlockId) : Prop :=
  ∃ r ∈ s.regions, r.handler = handler ∧ ∃ (key : Nat) (i j : Inst),
    r.exits[key]? = some next ∧ s.mod.Holds b kind [i, j] (.goto (cx.blockOf handler)) ∧
    i.op = .const ∧ i.imm = Int64.ofNat key ∧ j.op = .storeSlot ∧ j.slot = r.selector ∧ j.args = [i.id]

/-! ## Blocks of bytecode -/

/-- Whether a block of a kind holds lifted bytecode. -/
def holdsCode : BlockKind → Bool
  | .code | .continue | .loop => true
  | _ => false

/-- A block that builds arrays of several dimensions. -/
def LoopBlock (s : State) (b : BlockId) : Prop := ∃ k, s.mod.block? b = some k ∧ k.kind = .loop

/-- A terminator that goes on at one block unless the block faults. -/
def Passes (t : Terminator) (x : BlockId) : Prop :=
  t = .goto x ∨ t = .fallthrough x ∨ ∃ u, t = .mayUnwind x u

/-- The last instruction of a block keeps a value for the return behind cleanup code. -/
def Saves (s : State) (last : Option ValueId) : Prop :=
  ∃ (v a : ValueId) (j : Inst) (n : Nat), last = some v ∧ s.mod.inst? v = some j ∧ j.op = .storeSlot ∧
    j.slot = ⟨.temp, n⟩ ∧ j.args = [a] ∧ s.mod.temps[n]? = some Context.resultName

/-- How the last instruction of a bytecode block ends its IR block, of which `last` is the last IR
instruction, in code of an owner. -/
inductive Tail (cx : Context) (s : State) (o : Option Int) (i : Instruction) (last : Option ValueId) : Terminator → Prop
  | jump {t x} (hp : Passes t x) (hop : i.op = .goto ∨ i.op = .gotoW)
    (h : Route cx s o i.bci (.jump (i.targets.headD 0)) x) : Tail cx s o i last t
  | fall {t x} (hp : Passes t x) (hop : i.op.falls = true)
    (h : Route cx s o i.bci (.jump i.next) x) : Tail cx s o i last t
  | branch {v x y} (hop : i.op.isConditional = true)
    (h : Route cx s o i.bci (.jump (i.targets.headD 0)) x) (h' : Route cx s o i.bci (.jump i.next) y) :
    Tail cx s o i last (.condBr v x y)
  | switch {v d cs table} (hop : i.operand = .switch table) (hs : i.op.isSwitch = true)
    (hc : List.Forall₂ (fun (kt : Int × Int) c => c.key = kt.1 ∧ Route cx s o i.bci (.jump kt.2) c.target)
      table.cases cs) (hd : Route cx s o i.bci (.jump table.fallback) d) (hne : d ≠ noBlock) :
    Tail cx s o i last (.switch v d cs)
  | ret {v} (hop : i.op.isReturn = true) (h : exitedRegions s.regions i.bci .ret = []) :
    Tail cx s o i last (.ret v)
  | leave {t x} (hp : Passes t x) (hop : i.op.isReturn = true)
    (hne : exitedRegions s.regions i.bci .ret ≠ []) (h : Route cx s o i.bci .ret x)
    (hres : cx.result ≠ .void → Saves s last) : Tail cx s o i last t
  | throw {v u} (hop : i.op = .athrow) : Tail cx s o i last (.throw v u)
  | finish {v cs} (hop : i.op = .endfinally) : Tail cx s o i last (.switch v noBlock cs)

/-- The last instruction of the bytecode block that a bci lies in. -/
def LastOf (cx : Context) (bci : Int) (i : Instruction) : Prop :=
  ∃ B ∈ cx.partition.blocks, (B.start : Int) ≤ bci ∧ bci < B.stop ∧ B.insts.getLast? = some i

instance (cx : Context) (bci : Int) (i : Instruction) : Decidable (LastOf cx bci i) :=
  inferInstanceAs (Decidable (∃ _ ∈ _, _))

/-- Code of an owner jumps from one bci to another. -/
def JumpsFrom (cx : Context) (s : State) (o : Option Int) (source T : Int) : Prop :=
  ∃ bci e i, (bci, e) ∈ s.entries ∧ LastOf cx bci i ∧ .jump T ∈ i.exits ∧ (i.bci : Int) = source ∧ e.owner.head? = o

/-- Code of an owner jumps to a bci and leaves regions, of which the given one is the last. -/
def JumpsThrough (cx : Context) (s : State) (T h : Int) (o : Option Int) : Prop :=
  ∃ source, JumpsFrom cx s o source T ∧ (leftHandlers cx.table source (.jump T)).getLast? = some h

/-- Code of an owner vouches for the destination of an exit behind a region: if this is the last region, the code
jumps through it. -/
def Vouches (cx : Context) (s : State) (exit : Exit) (h : Int) (hs : List Int) (o : Option Int) : Prop :=
  hs = [] → ∀ T, exit = .jump T → JumpsThrough cx s T h o

/-- How a block of lifted bytecode ends: within the code of its bytecode block, with the last
instruction of that block, or never because control does not come to it. -/
inductive CodeTerm (cx : Context) (s : State) (b : BlockId) (start : Int) (last : Option ValueId) : Terminator → Prop
  | split {x u} (h : s.mod.Continues b x) : CodeTerm cx s b start last (.mayUnwind x u)
  | enter {x} (h : LoopBlock s x) : CodeTerm cx s b start last (.goto x)
  | loop {v x y} (h : LoopBlock s x) (h' : LoopBlock s y) : CodeTerm cx s b start last (.condBr v x y)
  | tail {o i t} (hi : LastOf cx start i) (h : Tail cx s o i last t) : CodeTerm cx s b start last t
  | idle : CodeTerm cx s b start last .unreachable

/-- What may be stored into a temporary: a key only by the blocks that enter the region, an exception
only by the landingpad of its bci. -/
inductive StoreOk (cx : Context) (s : State) (b : BlockId) (k : Block) (slot : Slot) : Prop
  | selector {n : Nat} {h : Int} (hs : slot = ⟨.temp, n⟩) (hn : s.mod.temps[n]? = some (selectorName h))
    (hkind : k.kind = .leave ∨ k.kind = .dispatch) (he : k.term = .none ∨ ∃ next, Enters cx s k.kind b h next)
  | caught {n : Nat} {c : Int} (hs : slot = ⟨.temp, n⟩) (hn : s.mod.temps[n]? = some (caughtName c))
    (hkind : k.kind = .landingpad) (hstart : k.start = c)
  | other {n : Nat} {name : Text} (hs : slot = ⟨.temp, n⟩) (hn : s.mod.temps[n]? = some name)
    (hsel : ∀ h, name ≠ selectorName h) (hexc : ∀ c, name ≠ caughtName c)

/-- Behind the given instructions of a block a value is known not to be zero: it was checked, or it is a
constant. -/
def NonZero (m : Module) (b : BlockId) (before : List ValueId) (d : ValueId) : Prop :=
  ∃ g j, (g ∈ before ∨ m.AvailAbove b g) ∧ m.inst? g = some j ∧
    (j.op = .checkDivZero ∧ j.args = [d] ∨ g = d ∧ j.op = .const ∧ j.imm ≠ 0)

/-- A division of integers, which faults if the divisor is zero. -/
def Divides (i : Inst) : Prop := (i.op = .div ∨ i.op = .rem) ∧ (i.ty = .i32 ∨ i.ty = .i64)

/-- A block may fault at a bci in a way that is to be caught. -/
def FaultAt (cx : Context) (s : State) (k : Block) (c : Int) : Prop :=
  match k.term with
  | .mayUnwind _ _ => cx.table.isProtected c = true ∧
    ∃ v i, k.insts.back? = some v ∧ s.mod.inst? v = some i ∧ i.op.mayThrow = true ∧ i.bci = c
  | .throw _ _ => cx.table.isProtected c = true ∧ ∃ i, LastOf cx k.start i ∧ (i.bci : Int) = c
  | _ => False

/-- The rules for a block of a module that is being lifted. -/
structure Lawful (cx : Context) (s : State) (b : BlockId) (k : Block) : Prop where
  sound : s.mod.SoundBlock b k
  /-- An instruction that may throw in a protected range is the last of its block. -/
  fault : ∀ {before v after i}, k.insts.toList = before ++ v :: after → s.mod.inst? v = some i →
    i.op.mayThrow = true → cx.table.isProtected i.bci = true → after = []
  store : ∀ {v i}, v ∈ k.insts → s.mod.inst? v = some i → i.op = .storeSlot → i.slot.space = .temp →
    StoreOk cx s b k i.slot
  nodup : k.insts.toList.Nodup
  divisor : ∀ {before v after i}, k.insts.toList = before ++ v :: after → s.mod.inst? v = some i → Divides i →
    ∃ a d, i.args = [a, d] ∧ NonZero s.mod b before d
  /-- A block goes to a landingpad for a fault in a protected range only. -/
  split : ∀ {x u}, k.term = .mayUnwind x u → ∃ c, FaultAt cx s k c
  caught : k.term.unwind ≠ noBlock → ∃ c, FaultAt cx s k c
  throws : k.term.isThrow = true → holdsCode k.kind = true
  code : holdsCode k.kind = true → k.term ≠ .none → CodeTerm cx s b k.start k.insts.back? k.term

/-! ## Landingpads -/

/-- The rows that a landingpad tries: the rows that cover its bci without the later rows of a region,
up to the first that catches everything. -/
def candidates (met : List Int) : List ExceptionEntry → List ExceptionEntry
  | [] => []
  | e :: rows =>
    if e.isCleanup then
      if e.handler ∈ met then candidates met rows else e :: candidates (e.handler :: met) rows
    else if e.catchesAny then [e]
    else e :: candidates met rows

/-- The clause of a row. -/
def clauseOf (cx : Context) (e : ExceptionEntry) : Clause :=
  if e.isCleanup then .cleanup (cx.blockOf e.handler)
  else if e.catchesAny then .catchAny (cx.blockOf e.handler)
  else .catch e.catchType (cx.blockOf e.handler)

/-- A block delivers the exception in a slot to the handler of a row: it puts the exception on the stack
and goes to the handler with `t`, which may come behind further instructions. -/
def Delivers (s : State) (b : BlockId) (caught : Slot) (tests : List Inst) (v : ValueId)
    (t : Terminator) : Prop :=
  ∃ i j : Inst, s.mod.Holds b .dispatch (i :: j :: tests) t ∧ i.id = v ∧ i.op = .loadSlot ∧
    i.slot = caught ∧ j.op = .storeSlot ∧ j.slot = ⟨.stack, 0⟩ ∧ j.args = [v]

/-- A block tries a row on the exception in a slot and leaves the rest to the next block. -/
inductive Tries (cx : Context) (s : State) (caught : Slot) (e : ExceptionEntry) (b next : BlockId) : Prop
  | cleanup (hc : e.isCleanup = true) (h : Enters cx s .dispatch b e.handler next) (hs : Scheduled s e.handler)
  | test {v} {t : Inst} (hc : e.isCleanup = false) (ha : e.catchesAny = false)
    (h : Delivers s b caught [t] v (.condBr t.id (cx.blockOf e.handler) next)) (hop : t.op = .instanceOf)
    (hsym : t.sym = e.catchType) (hargs : t.args = [v]) (hs : Entered s e.handler [.ref])

/-- The blocks that try the given rows in order, on the exception in a slot. -/
inductive Attempts (cx : Context) (s : State) (caught : Slot) : List ExceptionEntry → BlockId → Prop
  | resume {b} {i : Inst} (h : s.mod.Holds b .resume [i] (.resume i.id)) (hop : i.op = .loadSlot)
    (hslot : i.slot = caught) : Attempts cx s caught [] b
  | step {e rows b next} (h : Tries cx s caught e b next) (hr : Attempts cx s caught rows next) :
    Attempts cx s caught (e :: rows) b
  | catchAny {e b v} (hc : e.isCleanup = false) (ha : e.catchesAny = true)
    (h : Delivers s b caught [] v (.goto (cx.blockOf e.handler))) (hs : Entered s e.handler [.ref]) :
    Attempts cx s caught [e] b

/-- The label of the landingpad of a bci. -/
def padLabel (c : Int) : Text := bciLabel c "_unwind_dest"

theorem head?_padLabel (c : Int) : (padLabel c).head? = some (Text.byte 'b') := rfl

theorem bciLabel_ne_padLabel {bci c : Int} {t : Text} {b : UInt8} (ht : t.head? = some (Text.byte '_'))
    (hb : t[1]? = some b) (hne : b ≠ Text.byte 'u') : bciLabel bci t ≠ padLabel c := by
  intro h
  obtain ⟨-, rfl⟩ := bciLabel_injective (by simp [ht]) (by rintro _ ⟨⟩; rfl) h
  exact hne (Option.some.inj hb).symm

/-- The landingpad of a bci: it keeps the exception and tries the rows that cover the bci. -/
def PadOk (cx : Context) (s : State) (c : Int) (p : BlockId) : Prop :=
  ∃ (n : Nat) (k : Block) (token exc st : Inst) (first : BlockId) (cleanup : Bool),
    s.mod.block? p = some k ∧ k.start = c ∧ k.label = padLabel c ∧
    s.mod.Holds p .landingpad [token, exc, st] (.goto first) ∧
    token.op = .landingpad ∧ exc.op = .exception ∧ st.op = .storeSlot ∧ st.slot = ⟨.temp, n⟩ ∧
    st.args = [exc.id] ∧ s.mod.temps[n]? = some (caughtName c) ∧
    Attempts cx s ⟨.temp, n⟩ (candidates [] (cx.table.covering c)) first ∧
    k.pad = some ⟨c, (candidates [] (cx.table.covering c)).map (clauseOf cx), cleanup⟩

/-! ## The invariant -/

/-- What the step at hand has taken on and not finished. -/
structure Hand where
  /-- Blocks that have no terminator yet. -/
  blocks : List BlockId := []
  /-- Sites that were taken from the state to be attached. -/
  sites : List Site := []
  /-- Landingpads that are not entered into the table yet. -/
  pads : List BlockId := []
  /-- Bytecode blocks of which the lifting has begun. -/
  begun : List Int := []
  /-- Blocks that end the code of a region and are not entered into it yet. -/
  ending : List BlockId := []
  /-- The size of a stack that is being stored and not counted yet. -/
  depth : Nat := 0
  /-- Blocks that control goes to and that are not scheduled yet. -/
  ahead : List BlockId := []
  /-- Blocks that may be marked, since control never comes to them. -/
  idle : BlockId → Prop := fun _ => False

/-- A bytecode block that waits to be lifted. -/
def Pending (cx : Context) (o : Hand) (b : BlockId) : Prop :=
  ∃ B ∈ cx.partition.blocks, b = cx.blockOf B.start ∧ (B.start : Int) ∉ o.begun

/-- The unwind edge of a block that may fault at a bci is the landingpad of the bci, or waits for it. -/
def Settled (o : Hand) (s : State) (b : BlockId) (c : Int) (u : BlockId) : Prop :=
  (u = noBlock ∧ ∃ t ∈ s.sites ++ o.sites, t.block = b ∧ t.bci = c) ∨ (c, u) ∈ s.pads

/-- A terminator that cannot fault goes to given blocks only. -/
def Steers (L : BlockId → Prop) : Terminator → Prop
  | .none | .ret _ | .resume _ => True
  | .goto x | .fallthrough x => L x
  | .condBr _ x y => L x ∧ L y
  | _ => False

/-- Where a block without bytecode goes control may go, and only an idle block is marked. -/
def Leads (cx : Context) (o : Hand) (s : State) (b : BlockId) (k : Block) : Prop :=
  (k.term = .unreachable → o.idle b) ∧ (holdsCode k.kind = false → Steers (fun x => x ∈ o.ahead ∨ Led cx s x) k.term)

/-- A block ends the code of a region: it switches on the selector, which it loads last. -/
def EndOk (s : State) (r : Region) (b : BlockId) (v : ValueId) : Prop :=
  ∃ k i cs, s.mod.block? b = some k ∧ k.insts.back? = some v ∧ s.mod.inst? v = some i ∧
    i.op = .loadSlot ∧ i.slot = r.selector ∧ k.term = .switch v noBlock cs

/-- What the module of a lifting says about its method. -/
def Context.header (cx : Context) : Module.Header := ⟨cx.method.key, cx.params, cx.result, 0⟩

/-- What holds of the module. -/
structure GoodModule (cx : Context) (s : State) : Prop where
  error : s.builder.error = none
  header : s.mod.header = cx.header
  block : ∀ {b k}, s.mod.block? b = some k → Lawful cx s b k
  joined : ∀ {p q kp kq t u u'}, s.mod.block? p = some kp → s.mod.block? q = some kq →
    kp.term = .mayUnwind t u → kq.term = .mayUnwind t u' → s.mod.Continues p t → p = q
  entry : ∃ k, s.mod.block? 0 = some k ∧ k.kind = .entry
  /-- The bytecode blocks follow the entry block in order. -/
  layout : ∀ {n : Nat} {B}, cx.partition.blocks[n]? = some B →
    ∃ k, s.mod.block? ((n : Int) + 1) = some k ∧ k.kind = .code ∧ k.start = B.start
  temps : s.mod.temps.toList.Nodup
  /-- The label of a landingpad is asked for once, by the landingpad. -/
  labels : ∀ {c}, padLabel c ∈ s.builder.requested →
    ∃ p k, s.mod.block? p = some k ∧ k.kind = .landingpad ∧ k.start = c

theorem GoodModule.result {cx : Context} {s : State} (h : GoodModule cx s) : s.mod.result = cx.result :=
  congrArg Module.Header.result h.header

/-- The block of a cleanup handler belongs to its region. -/
def Guarded (cx : Context) (bci : Int) (owner : Owner) : Prop :=
  ∀ r ∈ cleanups cx.table, r.handler = bci → owner.head? = some bci

/-- What holds of the scheduled blocks. -/
structure GoodEntries (cx : Context) (s : State) : Prop where
  entriesNodup : (s.entries.map (·.1)).Nodup
  scheduled : ∀ {bci e}, (bci, e) ∈ s.entries → Known s e.owner ∧ Guarded cx bci e.owner ∧
    ∃ B ∈ cx.partition.blocks, (B.start : Int) = bci

/-- What holds of the blocks through which control leaves regions. -/
structure GoodExits (s : State) : Prop where
  leafKind : ∀ {hs exit b}, ((hs, exit), b) ∈ s.leaves → ∃ k, s.mod.block? b = some k ∧ k.kind = .leave
  ret : ∀ {b}, s.returnBlock = some b → ∃ k, s.mod.block? b = some k ∧ k.kind = .return

/-- A block enters a region and selects the block through which an exit goes on. -/
def Leaves (cx : Context) (s : State) (exit : Exit) (h : Int) (hs : List Int) (b : BlockId) : Prop :=
  ∃ next, Enters cx s .leave b h next ∧ RouteFrom cx s (Vouches cx s exit h hs) exit hs next

/-- A block returns what was kept for the return, or nothing if the method is void. -/
def Returns (cx : Context) (s : State) (b : BlockId) : Prop :=
  (cx.result = .void ∧ s.mod.Holds b .return [] (.ret noValue)) ∨
    ∃ (i : Inst) (n : Nat), cx.result ≠ .void ∧ s.mod.Holds b .return [i] (.ret i.id) ∧ i.op = .loadSlot ∧
      i.slot = ⟨.temp, n⟩ ∧ s.mod.temps[n]? = some Context.resultName

/-- What holds of the landingpads. -/
structure GoodPads (cx : Context) (s : State) : Prop where
  padsNodup : (s.pads.map (·.1)).Nodup
  pad : ∀ {c p}, (c, p) ∈ s.pads → PadOk cx s c p
  site : ∀ {c p}, (c, p) ∈ s.pads → ∃ b k, s.mod.block? b = some k ∧ FaultAt cx s k c

/-- What holds of the regions. -/
structure GoodRegions (cx : Context) (s : State) : Prop where
  alike : List.Forall₂ Region.Alike (cleanups cx.table) s.regions
  handlers : (s.regions.map (·.handler)).Nodup
  selector : ∀ r ∈ s.regions, ∃ n : Nat, r.selector = ⟨.temp, n⟩ ∧ s.mod.temps[n]? = some (selectorName r.handler)
  outer : ∀ r ∈ s.regions, ∀ owner, r.outer = some owner → Known s owner
  exits : ∀ r ∈ s.regions, ∀ x ∈ r.exits, Aim cx s x
  exitsNodup : ∀ r ∈ s.regions, r.exits.Nodup
  ends : ∀ r ∈ s.regions, ∀ e ∈ r.ends, EndOk s r e.1 e.2

/-- What holds of the tables. -/
structure GoodTables (cx : Context) (s : State) : Prop extends
  GoodEntries cx s, GoodExits s, GoodPads cx s, GoodRegions cx s

/-- A slot of the frame, with room for a stack of size `d`. -/
inductive InFrame (d : Nat) (s : State) : Slot → Prop
  | local (i : Int) : InFrame d s ⟨.local, i⟩
  | stack {n : Nat} (h : n < max s.maxStack d) : InFrame d s ⟨.stack, n⟩
  | temp {n : Nat} {name : Text} (h : s.mod.temps[n]? = some name) : InFrame d s ⟨.temp, n⟩

/-- What holds of the frame. -/
structure GoodFrame (d : Nat) (s : State) : Prop where
  slots : ∀ {v i}, s.mod.inst? v = some i → i.Accesses → InFrame d s i.slot
  shapes : ∀ {bci e}, (bci, e) ∈ s.entries → e.shape.length ≤ max s.maxStack d

/-- What is open and what is not. -/
structure Ledger (cx : Context) (o : Hand) (s : State) : Prop where
  distinct : o.blocks.Nodup
  opened : ∀ b ∈ o.blocks, ∃ k, s.mod.block? b = some k ∧ k.term = .none
  closed : ∀ {b k}, s.mod.block? b = some k → k.term = .none → b ∈ o.blocks ∨ Pending cx o b
  pending : ∀ {b}, Pending cx o b → b ∉ o.blocks ∧ ∃ k, s.mod.block? b = some k ∧ k.term = .none ∧ k.insts = #[]
  unwinds : ∀ {b k v i}, s.mod.block? b = some k → k.insts.back? = some v → s.mod.inst? v = some i →
    i.op.mayThrow = true → cx.table.isProtected i.bci = true → k.term = .none ∨ ∃ x u, k.term = .mayUnwind x u
  sites : ∀ t ∈ s.sites ++ o.sites, Known s t.owner ∧ ∃ k, s.mod.block? t.block = some k ∧ FaultAt cx s k t.bci
  settled : ∀ {b k c}, s.mod.block? b = some k → FaultAt cx s k c → Settled o s b c k.term.unwind
  leaf : ∀ {h hs exit b}, ((h :: hs, exit), b) ∈ s.leaves →
    b ∈ o.blocks ∨ Leaves cx s exit h hs b
  returns : ∀ {b}, s.returnBlock = some b → b ∈ o.blocks ∨ Returns cx s b
  padBlock : ∀ {b k}, s.mod.block? b = some k → k.kind = .landingpad → b ∈ o.pads ∨ (k.start, b) ∈ s.pads
  ending : ∀ {b k v cs}, s.mod.block? b = some k → k.term = .switch v noBlock cs →
    b ∈ o.ending ∨ ∃ r ∈ s.regions, (b, v) ∈ r.ends
  leads : ∀ {b k}, s.mod.block? b = some k → Leads cx o s b k

/-- **The invariant of a lifting.** -/
structure Good (cx : Context) (o : Hand) (s : State) : Prop extends
  GoodModule cx s, GoodTables cx s, GoodFrame o.depth s, Ledger cx o s

end Lift

end Bytelift
