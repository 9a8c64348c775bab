import Bytelift.Proofs.Machine.Execution

/-!
# What an instruction can do

An instruction reads the environment and the heap, adds objects and changes them, sets static fields and strings, calls
a method, or stops. `Does` lists these steps. It is shown once for each operation, and what is kept by every step is
then kept by every instruction. No step looks at the counts of the machine.

Checks raise exceptions, and so do calls and look-ups of methods. Apart from these, only a division of integers does.
Errors that code cannot catch have a cause that can be told from the instruction, or from a value that it uses.

Results:
* `exec_does`: **an instruction takes no other steps**, and its stops have the causes that `Cause` lists.
-/

namespace Bytelift.Machine

open Ir

/-- The state without its counts; the log of native calls stays. -/
def State.bare (s : State) : State :=
  { s with meter := { calls := s.meter.calls, callLimit := s.meter.callLimit, budget := 0 } }

/-- Every stop of a computation has a property. -/
def Stops {α : Type} (x : RunM α) (P : Stop → Prop) : Prop := ∀ s e s', x.run s = (.error e, s') → P e

/-- What a computation does from a state. It does not see the counts, an object that it changes keeps its class, and
its stops have a property. -/
inductive Does (call : Caller) (P : Stop → Prop) : {α : Type} → RunM α → State → Prop
  | pure {α s} (a : α) : Does call P (pure a) s
  | throw {α e s} (he : P e) : Does call P (throw e : RunM α) s
  /-- The second part may rely on what the first one found. -/
  | bind_ok {α β s} {x : RunM α} {f : α → RunM β} (hx : Does call P x s)
    (hf : ∀ a s', x.run s = (.ok a, s') → Does call P (f a) s') : Does call P (x >>= f) s
  | get {α s} {g : State → RunM α} (hg : ∀ s, g s.bare = g s) (h : Does call P (g s) s) :
    Does call P (get >>= g) s
  | alloc {s} (o : Object) : Does call P (alloc o) s
  | setObject {s r o o'} (ho : s.heap[r]? = some o) (hcls : o'.cls = o.cls) : Does call P (setObject r o') s
  | setEnv {s} {g : Env → Env} (hg : ∀ e, (g e).classes = e.classes) :
    Does call P (modify fun s => { s with env := g s.env } : RunM Unit) s
  | call {s key args} (h : ∀ e s', (call key args).run s = (.error e, s') → P e) : Does call P (call key args) s

variable {call : Caller} {P : Stop → Prop} {α β : Type} {s s' : State} {op : Op}

section Rules

variable {x : RunM α} {f : α → RunM β}

theorem Does.stop {e : Stop} (h : Does call P x s) (hr : x.run s = (.error e, s')) : P e := by
  induction h generalizing s' e with
  | pure | alloc | setObject | setEnv => cases hr
  | throw he =>
    cases hr
    exact he
  | bind_ok _ _ ihx ihf =>
    rw [run_bind] at hr
    split at hr
    · rename_i a s1 ha
      exact ihf a s1 ha hr
    · rename_i e1 s1 he
      cases hr
      exact ihx he
  | get _ _ ih => exact ih hr
  | call h => exact h _ _ hr

theorem Does.stops (h : ∀ s, Does call P x s) : Stops x P := fun s _ _ hr => (h s).stop hr

theorem Does.bind (hx : Does call P x s) (hf : ∀ a s, Does call P (f a) s) : Does call P (x >>= f) s :=
  hx.bind_ok fun a s' _ => hf a s'

theorem Does.ite {c : Prop} [Decidable c] {y : RunM α} (hx : c → Does call P x s) (hy : Does call P y s) :
    Does call P (if c then x else y) s := by
  split
  · exact hx ‹_›
  · exact hy

theorem Does.need (hs : P .stuck) (o : Option α) : Does call P (need o) s := by
  cases o with
  | none => exact .throw hs
  | some a => exact .pure a

end Rules

/-! ## Operations -/

theorem run_object_ok {v : Value} {x : Ref × Object} (h : (object v).run s = (.ok x, s')) :
    s = s' ∧ s.heap[x.1]? = some x.2 := by
  obtain ⟨r, s1, hr, h1⟩ := run_bind_ok.1 h
  obtain ⟨-, rfl⟩ := run_need_ok.1 hr
  obtain ⟨t, s2, ht, h2⟩ := run_bind_ok.1 h1
  cases ht
  obtain ⟨o, s3, ho, h3⟩ := run_bind_ok.1 h2
  obtain ⟨hheap, rfl⟩ := run_need_ok.1 ho
  cases h3
  exact ⟨rfl, hheap⟩

theorem run_arrayOf_ok {v : Value} {x : Ref × Object × ArrayBody} (h : (arrayOf v).run s = (.ok x, s')) :
    s = s' ∧ s.heap[x.1]? = some x.2.1 := by
  obtain ⟨⟨r, o⟩, s1, ho, h1⟩ := run_bind_ok.1 h
  obtain ⟨rfl, hheap⟩ := run_object_ok ho
  obtain ⟨a, s2, ha, h2⟩ := run_bind_ok.1 h1
  obtain ⟨-, rfl⟩ := run_need_ok.1 ha
  cases h2
  exact ⟨rfl, hheap⟩

theorem does_intern (t : Text) : Does call P (intern t) s := by
  refine .get (fun _ => rfl) ?_
  split
  · exact .pure _
  · refine (Does.alloc _).bind fun r _ => Does.bind ?_ fun _ _ => .pure _
    exact .setEnv (g := fun e => { e with strings := assign t r e.strings }) fun _ => rfl

theorem does_isInstance (o : Object) (t : Text) : Does call P (isInstance o t) s := .get (fun _ => rfl) (.pure _)

theorem does_loadStatic (key : Text) : Does call P (loadStatic key) s := .get (fun _ => rfl) (.pure _)

theorem does_storeStatic (key : Text) (v : Value) : Does call P (storeStatic key v) s :=
  .setEnv (g := fun e => { e with statics := assign key v e.statics }) fun _ => rfl

theorem does_compareBy {isRef : Bool} {p : Option Pred} {a b : Value}
    (h : isRef = true → p ≠ some .eq → p ≠ some .ne → P (.failed .orderedRefs)) : Does call P (compareBy isRef p a b) s := by
  refine .ite (fun hr => ?_) (.pure _)
  split
  · exact .pure _
  · exact .pure _
  · rename_i heq hne
    exact .throw (h hr heq hne)

section Raising

variable (ht : ∀ r, P (.thrown (some r)))

include ht

theorem does_throwNew (cls : Text) : Does call P (throwNew cls : RunM α) s := (Does.alloc _).bind fun r _ => .throw (ht r)

theorem does_guard (c : Prop) [Decidable c] (cls : Text) : Does call P (if c then throwNew cls else pure () : RunM Unit) s :=
  .ite (fun _ => does_throwNew ht _) (.pure _)

theorem does_lookupMethod {isInterface : Bool} {sym cls : Text}
    (hcut : Text.cutAt (Text.byte '.') sym = none → P (.failed (.badSymbol sym))) :
    Does call P (lookupMethod isInterface sym cls) s := by
  unfold lookupMethod
  split
  · exact .throw (hcut ‹_›)
  refine .get (fun _ => rfl) ?_
  dsimp only
  split
  · exact .pure _
  · exact .ite (fun _ => does_throwNew ht _) (does_throwNew ht _)

end Raising

section Reading

variable (hs : P .stuck)

include hs

theorem does_object (v : Value) : Does call P (object v) s :=
  (Does.need hs _).bind fun _ _ => .get (fun _ => rfl) ((Does.need hs _).bind fun _ _ => .pure _)

theorem does_arrayOf (v : Value) : Does call P (arrayOf v) s :=
  (does_object hs v).bind fun _ _ => (Does.need hs _).bind fun _ _ => .pure _

theorem does_storeField (obj : Value) (key : Text) (v : Value) : Does call P (storeField obj key v) s :=
  (does_object hs obj).bind_ok fun _ _ h => by
    obtain ⟨rfl, hheap⟩ := run_object_ok h
    exact .setObject hheap rfl

theorem does_fillArray (arr v : Value) : Does call P (fillArray arr v) s :=
  (does_arrayOf hs arr).bind_ok fun _ _ h => by
    obtain ⟨rfl, hheap⟩ := run_arrayOf_ok h
    exact .setObject hheap rfl

theorem does_setElement (arr : Value) (index : Int) (v : Value) : Does call P (setElement arr index v) s :=
  (does_arrayOf hs arr).bind_ok fun _ _ h => (Does.need hs _).bind_ok fun _ _ h' => by
    obtain ⟨rfl, hheap⟩ := run_arrayOf_ok h
    obtain ⟨-, rfl⟩ := run_need_ok.1 h'
    exact .setObject hheap rfl

theorem does_instanceOf (v : Value) (cls : Text) : Does call P (instanceOf v cls) s :=
  .ite (fun _ => .pure _) ((does_object hs v).bind fun _ _ => (does_isInstance _ _).bind fun _ _ => .pure _)

theorem does_checkBounds (ht : ∀ r, P (.thrown (some r))) (arr index : Value) : Does call P (checkBounds arr index) s :=
  .ite (fun _ => does_throwNew ht _) ((does_arrayOf hs arr).bind fun _ _ => does_guard ht _ _)

theorem does_checkCast (ht : ∀ r, P (.thrown (some r))) (v : Value) (cls : Text) : Does call P (checkCast v cls) s :=
  .ite (fun _ => .pure _) ((does_object hs v).bind fun _ _ => (does_isInstance _ _).bind fun _ _ =>
    .ite (fun _ => .pure _) (does_throwNew ht _))

theorem does_arg (f : Frame) (i : Inst) (n : Nat) : Does call P (f.arg i n) s := (Does.need hs _).bind fun _ _ => .need hs _

theorem does_execCall {f : Frame} {i : Inst} (hcall : ∀ e key args s s', (call key args).run s = (.error e, s') → P e) :
    Does call P (execCall call f i) s := by
  have hargs (vs : List ValueId) (s : State) : Does call P (vs.mapM f.value) s := by
    induction vs generalizing s with
    | nil => exact .pure _
    | cons v vs ih =>
      rw [List.mapM_cons]
      exact (Does.need hs _).bind fun _ _ => (ih _).bind fun _ _ => .pure _
  have hcallee (c : CallSite) (s : State) : Does call P (calleeOf f i c) s :=
    .ite (fun _ => .pure _) ((Does.need hs _).bind fun _ _ => .pure _)
  have hreceiver (c : CallSite) (s : State) : Does call P (receiverOf f c) s :=
    .ite (fun _ => .pure _) ((Does.need hs _).bind fun _ _ => .pure _)
  exact (Does.need hs _).bind fun c _ => (hcallee c _).bind fun _ _ => (hreceiver c _).bind fun _ _ =>
    (hargs _ _).bind fun _ s => .call fun e s' => hcall e _ _ s s'

end Reading

/-! ## Division -/

/-- A divisor is zero, in the bits that a type reads. -/
def IsZero (ty : Ty) (x : Value) : Prop := ty = .i32 ∧ x.int32 = 0 ∨ ty = .i64 ∧ x.i = 0

theorem intOp_none {x y : Int32} (h : intOp op x y = none) : (op = .div ∨ op = .rem) ∧ y = 0 := by
  revert h
  fun_cases intOp op x y <;> simp_all

theorem longOp_none {x y : Int64} (h : longOp op x y = none) : (op = .div ∨ op = .rem) ∧ y = 0 := by
  revert h
  fun_cases longOp op x y <;> simp_all

/-- Only a division of integers faults, and only by zero. -/
theorem binary_zeroDivisor {ty : Ty} {a b : Value} (h : binary op ty a b = .error .zeroDivisor) :
    (op = .div ∨ op = .rem) ∧ IsZero ty b := by
  unfold binary at h
  split at h
  · split at h
    · cases h
    · obtain ⟨hop, hz⟩ := intOp_none ‹_›
      exact ⟨hop, .inl ⟨rfl, hz⟩⟩
  · split at h
    · cases h
    · obtain ⟨hop, hz⟩ := longOp_none ‹_›
      exact ⟨hop, .inr ⟨rfl, hz⟩⟩
  · split at h <;> cases h
  · split at h <;> cases h
  · cases h

theorem does_compute {ty : Ty} {a b : Value} (hz : op = .div ∨ op = .rem → IsZero ty b → ∀ r, P (.thrown (some r)))
    (hu : binary op ty a b = .error .undefined → P (.failed (.undefinedOp op ty))) : Does call P (compute op ty a b) s := by
  unfold compute
  split
  · exact .pure _
  · rename_i h
    obtain ⟨hop, hzero⟩ := binary_zeroDivisor h
    exact does_throwNew (hz hop hzero) _
  · rename_i h
    exact .throw (hu h)

/-! ## Instructions -/

/-- Why an instruction stops. -/
inductive Cause (call : Caller) (mod : Module) (i : Inst) (f : Frame) : Stop → Prop
  /-- A part that is needed is not there. -/
  | missing : Cause call mod i f .stuck
  /-- A check fails, or a method is not found. -/
  | check {obj} (hop : i.op.mayThrow = true) : Cause call mod i f (.thrown obj)
  | divisor {obj d x} (hop : i.op = .div ∨ i.op = .rem) (hd : i.args[1]? = some d) (hx : lookup? f.values d = some x)
    (hz : IsZero i.ty x) : Cause call mod i f (.thrown obj)
  /-- The method that is called stops. -/
  | callee {e key args s s'} (hop : i.op = .call) (h : (call key args).run s = (.error e, s')) : Cause call mod i f e
  | undefined {a b} (h : binary i.op i.ty a b = .error .undefined) : Cause call mod i f (.failed (.undefinedOp i.op i.ty))
  | ordered {first} (hop : i.op = .icmp) (hfirst : (i.args[0]?).bind mod.inst? = some first) (hty : first.ty = .ref)
    (heq : predicate? i.imm.toInt ≠ some .eq) (hne : predicate? i.imm.toInt ≠ some .ne) :
    Cause call mod i f (.failed .orderedRefs)
  | length {a x} (hop : i.op = .allocArray) (ha : i.args[0]? = some a) (hx : lookup? f.values a = some x)
    (hneg : x.int32.toInt < 0) : Cause call mod i f (.failed (.negativeLength mod.method x.int32.toInt))
  | exception (hop : i.op = .landingpad) (h : f.inflight = none) : Cause call mod i f (.failed (.noException mod.method))
  | symbol (hop : i.op = .lookupVirtual ∨ i.op = .lookupInterface) (h : Text.cutAt (Text.byte '.') i.sym = none) :
    Cause call mod i f (.failed (.badSymbol i.sym))

/-- **An instruction takes no other steps**, and every stop has a cause. -/
theorem exec_does (call : Caller) (mod : Module) (i : Inst) (f : Frame) (s : State) :
    Does call (Cause call mod i f) (exec call mod i f) s := by
  have thrown (hop : i.op.mayThrow = true) (r : Ref) : Cause call mod i f (.thrown (some r)) := .check hop
  have arg (n : Nat) {s : State} : Does call (Cause call mod i f) (f.arg i n) s := does_arg .missing f i n
  have object (v : Value) {s : State} : Does call (Cause call mod i f) (object v) s := does_object .missing v
  have array (v : Value) {s : State} : Does call (Cause call mod i f) (arrayOf v) s := does_arrayOf .missing v
  unfold exec
  cases hop : i.op with
  | checkNull | checkDivZero | checkNonNeg =>
    exact (arg 0).bind fun _ _ => (does_guard (thrown (by rw [hop]; rfl)) _ _).bind fun _ _ => .pure _
  | checkBounds =>
    exact (arg 0).bind fun _ _ => (arg 1).bind fun _ _ =>
      (does_checkBounds .missing (thrown (by rw [hop]; rfl)) _ _).bind fun _ _ => .pure _
  | checkCast =>
    exact (arg 0).bind fun _ _ => (does_checkCast .missing (thrown (by rw [hop]; rfl)) _ _).bind fun _ _ => .pure _
  | lookupVirtual =>
    exact (arg 0).bind fun _ _ => (does_lookupMethod (thrown (by rw [hop]; rfl)) (.symbol (.inl hop))).bind fun _ _ => .pure _
  | lookupInterface =>
    exact (arg 0).bind fun _ _ => (does_lookupMethod (thrown (by rw [hop]; rfl)) (.symbol (.inr hop))).bind fun _ _ => .pure _
  | call =>
    exact (does_execCall .missing fun _ _ _ _ _ => .callee hop).bind fun _ _ => .pure _
  | add | sub | mul | div | rem | shl | shr | ushr | and | or | xor =>
    dsimp only
    rw [← hop]
    refine (arg 0).bind fun a _ => (arg 1).bind_ok fun b _ hb => Does.bind ?_ fun _ _ => .pure _
    obtain ⟨⟨d, hd, hx⟩, -⟩ := Frame.run_arg_ok.1 hb
    exact does_compute (fun hop hz r => .divisor hop hd hx hz) .undefined
  | icmp =>
    refine (arg 0).bind fun _ _ => (arg 1).bind fun _ _ => (Does.need .missing _).bind_ok fun first _ h =>
      Does.bind ?_ fun _ _ => .pure _
    obtain ⟨hfirst, -⟩ := run_need_ok.1 h
    exact does_compareBy fun hr => .ordered hop hfirst (of_decide_eq_true hr)
  | allocArray =>
    refine (arg 0).bind_ok fun n _ hn => (Does.need .missing _).bind fun _ _ => Does.bind ?_ fun _ _ => .pure _
    obtain ⟨⟨a, ha, hx⟩, -⟩ := Frame.run_arg_ok.1 hn
    exact .ite (fun hneg => .throw (.length hop ha hx hneg)) (.alloc _)
  | landingpad =>
    refine Does.bind ?_ fun _ _ => .pure _
    exact .ite (fun hnone => .throw (.exception hop (Option.isNone_iff_eq_none.1 hnone))) (.pure _)
  | const | constNull | exception =>
    exact .pure _
  | param | loadSlot =>
    exact (Does.need .missing _).bind fun _ _ => .pure _
  | storeSlot =>
    exact (arg 0).bind fun _ _ => .need .missing _
  | constString =>
    exact (does_intern _).bind fun _ _ => .pure _
  | neg | sext | trunc | i2b | i2c | i2s | itof | ftoi | fext | ftrunc =>
    exact (arg 0).bind fun _ _ => .pure _
  | cmp | fcmp =>
    exact (arg 0).bind fun _ _ => (arg 1).bind fun _ _ => .pure _
  | instanceOf =>
    exact (arg 0).bind fun _ _ => (does_instanceOf .missing _ _).bind fun _ _ => .pure _
  | allocObject =>
    exact (Does.need .missing _).bind fun _ _ => (Does.alloc _).bind fun _ _ => .pure _
  | arrayFill =>
    exact (arg 0).bind fun _ _ => (arg 1).bind fun _ _ => (does_fillArray .missing _ _).bind fun _ _ => .pure _
  | arrayLength =>
    exact (arg 0).bind fun _ _ => ((array _).bind fun _ _ => .pure _).bind fun _ _ => .pure _
  | loadElem =>
    exact (arg 0).bind fun _ _ => (arg 1).bind fun _ _ => ((array _).bind fun _ _ => .need .missing _).bind fun _ _ => .pure _
  | storeElem =>
    exact (arg 0).bind fun _ _ => (arg 1).bind fun _ _ => (arg 2).bind fun _ _ =>
      (does_setElement .missing _ _ _).bind fun _ _ => .pure _
  | loadField | loadKlass =>
    exact (arg 0).bind fun _ _ => ((object _).bind fun _ _ => .pure _).bind fun _ _ => .pure _
  | storeField =>
    exact (arg 0).bind fun _ _ => (arg 1).bind fun _ _ => (does_storeField .missing _ _ _).bind fun _ _ => .pure _
  | loadStatic =>
    exact (does_loadStatic _).bind fun _ _ => .pure _
  | storeStatic =>
    exact (arg 0).bind fun _ _ => (does_storeStatic _ _).bind fun _ _ => .pure _
  | unknown n =>
    exact .throw .missing

theorem exec_stop {mod : Module} {i : Inst} {f : Frame} {e : Stop} (h : (exec call mod i f).run s = (.error e, s')) :
    Cause call mod i f e :=
  Does.stops (exec_does call mod i f) _ _ _ h

end Bytelift.Machine
