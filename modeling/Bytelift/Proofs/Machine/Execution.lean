import Bytelift.Machine.Run
import Bytelift.Proofs.Ir.Building
import Bytelift.Proofs.Traversals

/-!
# How the machine executes a block

A computation of the machine is taken apart at its binds. An instruction changes the frame in one of two
ways: a store sets one slot, and every other instruction sets at most its own value. The execution of a
block is then described completely: all its instructions are executed and the terminator decides, or one
of them stops.

Results:
* `exec_ok`: what an instruction does to the frame;
* `Executes`: instructions are executed one after the other without a fault;
* `execFrom_cases`: the ways in which the execution of a block ends;
* `Executes.read?`: a slot that nothing is stored into keeps its value.
-/

namespace Bytelift.Machine

open Ir

/-! ## Computations -/

section Computations

variable {α β : Type} {x : RunM α} {s s' : State} {a : α} {f : α → RunM β} {o : Object} {r : Ref}

theorem run_bind_of_ok {s1 : State} (h : x.run s = (.ok a, s1)) : (x >>= f).run s = (f a).run s1 := by
  rw [run_bind, h]

theorem run_pure (a : α) (s : State) : (pure a : RunM α).run s = (.ok a, s) := rfl

theorem run_need (o : Option α) (s : State) :
    (need o).run s = match o with
      | some a => (.ok a, s)
      | none => (.error .stuck, s) := by
  cases o <;> rfl

theorem run_need_ok {o : Option α} : (need o).run s = (.ok a, s') ↔ o = some a ∧ s = s' := by
  cases o with
  | none => exact iff_of_false nofun nofun
  | some b => exact ⟨fun h => by cases h; exact ⟨rfl, rfl⟩, fun ⟨hb, hs⟩ => by cases hb; cases hs; rfl⟩

theorem run_attempt (x : RunM α) (s : State) : (attempt x).run s = (.ok (x.run s).1, (x.run s).2) := by
  rcases hx : x.run s with ⟨r, s'⟩
  have hx : x s = (r, s') := hx
  change (ExceptT.tryCatch (ExceptT.map Except.ok x) _) s = _
  unfold ExceptT.tryCatch ExceptT.map ExceptT.mk
  simp only [bind, StateT.bind, hx]
  cases r <;> rfl

/-- Every result of a computation has a property. -/
def Yields (x : RunM α) (P : α → Prop) : Prop := ∀ s a s', x.run s = (.ok a, s') → P a

theorem Yields.pure {P : α → Prop} (h : P a) : Yields (pure a : RunM α) P := by
  intro s b s' hb
  cases hb
  exact h

theorem Yields.bind {P : β → Prop} (h : ∀ a, Yields (f a) P) : Yields (x >>= f) P := by
  intro s b s' hb
  obtain ⟨a, s1, -, hb⟩ := run_bind_ok.1 hb
  exact h a _ _ _ hb

theorem Yields.throw {P : α → Prop} {e : Stop} : Yields (throw e : RunM α) P := by
  intro s b s' hb
  cases hb

end Computations

/-! ## Frames -/

namespace Frame

variable {f f' : Frame} {slot slot' : Slot} {v : Value} {i : Inst}

theorem area_setArea (f : Frame) (p q : SlotSpace) (a : Array Value) :
    (f.setArea p a).area q = if q = p then a else f.area q := by
  cases p <;> cases q <;> rfl

@[simp] theorem values_setArea (f : Frame) (p : SlotSpace) (a : Array Value) : (f.setArea p a).values = f.values := by
  cases p <;> rfl

@[simp] theorem read?_define (f : Frame) (i : Inst) (v : Value) (slot : Slot) :
    (f.define i v).read? slot = f.read? slot := by
  cases slot.space <;> rfl

@[simp] theorem size_define (f : Frame) (i : Inst) (v : Value) : (f.define i v).values.size = f.values.size := by
  simp [define]

theorem lookup?_define_self (hpos : (0 : Int) ≤ i.id) (hlt : i.id < (f.values.size : Int)) :
    lookup? (f.define i v).values i.id = some v := by
  have hin : Int.toNat i.id < f.values.size := (Int.toNat_lt hpos).2 hlt
  unfold lookup? define
  rw [if_pos hpos, Array.getElem?_setIfInBounds_self, if_pos hin]

theorem eq_of_lookup?_define {w : Value} (h : lookup? (f.define i v).values i.id = some w) : w = v := by
  obtain ⟨hpos, hlt⟩ := lookup?_bounds h
  rw [size_define] at hlt
  exact Option.mem_unique h (lookup?_define_self hpos hlt)

theorem lookup?_define_ne {w : Int} (h : w ≠ i.id) (hi : (0 : Int) ≤ i.id) :
    lookup? (f.define i v).values w = lookup? f.values w := by
  unfold lookup? define
  split
  · rw [Array.getElem?_setIfInBounds_ne (by omega)]
  · rfl

theorem values_write? (h : f.write? slot v = some f') : f'.values = f.values := by
  unfold write? at h
  split at h
  · cases h
    simp
  · cases h

theorem getD_grow (a : Array Value) (n m : Nat) :
    ((if n < a.size then a else a ++ Array.replicate (n + 1 - a.size) ({} : Value))[m]?.getD {}) = a[m]?.getD {} := by
  split
  · rfl
  rw [Array.getElem?_append]
  split
  · rfl
  · rename_i hm
    rw [Array.getElem?_eq_none (show a.size ≤ m by omega), Array.getElem?_replicate]
    split <;> rfl

/-- What a slot reads after another or the same slot was set. -/
theorem read?_write? (h : f.write? slot v = some f') : f'.read? slot' = if slot' = slot then some v else f.read? slot' := by
  unfold write? at h
  split at h
  · rename_i hpos
    cases h
    by_cases heq : slot' = slot
    · rw [if_pos heq, heq, read?, if_pos hpos, area_setArea, if_pos rfl, Array.getElem?_setIfInBounds_self, if_pos]
      · rfl
      · split
        · assumption
        · simp
          omega
    · rw [if_neg heq, read?, read?, area_setArea]
      split
      · split
        · rename_i hpos' hspace
          have hindex : slot'.index ≠ slot.index := fun hi => heq (by cases slot; cases slot'; simp_all)
          rw [Array.getElem?_setIfInBounds_ne (by omega), getD_grow, hspace]
        · rfl
      · rfl
  · cases h

theorem exists_write? (f : Frame) (slot : Slot) (v : Value) (h : 0 ≤ slot.index) : ∃ f', f.write? slot v = some f' := by
  unfold write?
  rw [if_pos h]
  exact ⟨_, rfl⟩

theorem run_value_ok {v : ValueId} {a : Value} {s s' : State} :
    (f.value v).run s = (.ok a, s') ↔ lookup? f.values v = some a ∧ s = s' :=
  run_need_ok

theorem run_arg_ok {n : Nat} {a : Value} {s s' : State} :
    (f.arg i n).run s = (.ok a, s') ↔ (∃ v, i.args[n]? = some v ∧ lookup? f.values v = some a) ∧ s = s' := by
  unfold arg
  simp only [run_bind_ok, run_need_ok, run_value_ok]
  constructor
  · rintro ⟨v, _, ⟨hv, rfl⟩, ha, rfl⟩
    exact ⟨⟨v, hv, ha⟩, rfl⟩
  · rintro ⟨⟨v, hv, ha⟩, rfl⟩
    exact ⟨v, s, ⟨hv, rfl⟩, ha, rfl⟩

end Frame

/-! ## Instructions -/

section Instructions

variable {call : Caller} {mod : Module} {i : Inst} {f f' : Frame} {s s' : State} {v : Value} {a : ValueId}

theorem exec_storeSlot (call : Caller) (mod : Module) (f : Frame) (hop : i.op = .storeSlot) :
    exec call mod i f = (do
      let v ← f.arg i 0
      need (f.write? i.slot v)) := by
  unfold exec
  rw [hop]

theorem exec_const (call : Caller) (mod : Module) (f : Frame) (hop : i.op = .const) :
    exec call mod i f = pure (f.define i { i := i.imm, f := i.fimm }) := by
  unfold exec
  rw [hop]

theorem exec_loadSlot (call : Caller) (mod : Module) (f : Frame) (hop : i.op = .loadSlot) :
    exec call mod i f = (do
      let v ← need (f.read? i.slot)
      return f.define i v) := by
  unfold exec
  rw [hop]

theorem run_exec_const (hop : i.op = .const) :
    (exec call mod i f).run s = (.ok (f.define i { i := i.imm, f := i.fimm }), s) := by
  rw [exec_const call mod f hop, run_pure]

theorem run_exec_loadSlot (hop : i.op = .loadSlot) (hv : f.read? i.slot = some v) :
    (exec call mod i f).run s = (.ok (f.define i v), s) := by
  rw [exec_loadSlot call mod f hop, run_bind_of_ok (run_need_ok.2 ⟨hv, rfl⟩), run_pure]

theorem run_arg_of_args {args : List ValueId} (hargs : i.args = a :: args)
    (hv : lookup? f.values a = some v) : (f.arg i 0).run s = (.ok v, s) :=
  Frame.run_arg_ok.2 ⟨⟨a, by rw [hargs]; rfl, hv⟩, rfl⟩

theorem run_exec_storeSlot (hop : i.op = .storeSlot) (hargs : i.args = [a])
    (hv : lookup? f.values a = some v) (hw : f.write? i.slot v = some f') :
    (exec call mod i f).run s = (.ok f', s) := by
  rw [exec_storeSlot call mod f hop, run_bind_of_ok (run_arg_of_args hargs hv)]
  exact run_need_ok.2 ⟨hw, rfl⟩

theorem run_exec_landingpad (hop : i.op = .landingpad) (hr : f.inflight = some r) :
    (exec call mod i f).run s = (.ok f, s) := by
  unfold exec failIf
  rw [hop, hr]
  rfl

theorem run_exec_exception (hop : i.op = .exception) :
    (exec call mod i f).run s = (.ok (f.define i { ref := f.inflight }), s) := by
  unfold exec
  rw [hop]
  rfl

theorem run_object (hv : v.ref = some r) (ho : s.heap[r]? = some o) :
    (object v).run s = (.ok (r, o), s) := by
  unfold object
  rw [hv]
  change (need s.heap[r]? >>= fun o => pure (r, o) : RunM (Ref × Object)).run s = _
  rw [run_bind_of_ok (run_need_ok.2 ⟨ho, rfl⟩), run_pure]

theorem run_instanceOf (hv : v.ref = some r) (ho : s.heap[r]? = some o) (cls : Text) :
    (instanceOf v cls).run s = (.ok (.ofBool (s.env.classes.isSubclass o.cls cls)), s) := by
  unfold instanceOf
  rw [if_neg (by simp [hv]), run_bind_of_ok (run_object hv ho)]
  rfl

theorem run_exec_instanceOf (hop : i.op = .instanceOf) (hargs : i.args = [a])
    (hv : lookup? f.values a = some (.ofRef r)) (ho : s.heap[r]? = some o) :
    (exec call mod i f).run s = (.ok (f.define i (.ofBool (s.env.classes.isSubclass o.cls i.sym))), s) := by
  unfold exec
  rw [hop]
  rw [run_bind_of_ok (run_arg_of_args hargs hv), run_bind_of_ok (run_instanceOf rfl ho i.sym), run_pure]

/-- An instruction that is no store leaves the frame or sets its own value. -/
theorem exec_yields (hop : i.op ≠ .storeSlot) :
    Yields (exec call mod i f) fun f' => f' = f ∨ ∃ v, f' = f.define i v := by
  have leaves : Yields (pure f : RunM Frame) fun f' => f' = f ∨ ∃ v, f' = f.define i v := .pure (.inl rfl)
  have defines (v : Value) : Yields (pure (f.define i v) : RunM Frame) fun f' => f' = f ∨ ∃ v, f' = f.define i v :=
    .pure (.inr ⟨v, rfl⟩)
  have either (v : Value) : Yields (pure (if i.hasResult then f.define i v else f) : RunM Frame)
      fun f' => f' = f ∨ ∃ v, f' = f.define i v := by
    split
    · exact defines v
    · exact leaves
  unfold exec
  split
  case h_6 hstore => exact absurd hstore hop
  all_goals
    repeat refine Yields.bind fun _ => ?_
    first | exact defines _ | exact leaves | exact either _ | exact .throw

/-- **What an instruction does to the frame**: a store sets its slot, and every other instruction sets at
most its own value. -/
theorem exec_ok (h : (exec call mod i f).run s = (.ok f', s')) :
    (i.op = .storeSlot ∧ s = s' ∧ ∃ a v, i.args[0]? = some a ∧ lookup? f.values a = some v ∧
      f.write? i.slot v = some f') ∨ i.op ≠ .storeSlot ∧ (f' = f ∨ ∃ v, f' = f.define i v) := by
  by_cases hop : i.op = .storeSlot
  · rw [exec_storeSlot call mod f hop] at h
    obtain ⟨v, s1, hv, hw⟩ := run_bind_ok.1 h
    obtain ⟨⟨a, ha, hav⟩, rfl⟩ := Frame.run_arg_ok.1 hv
    obtain ⟨hwrite, rfl⟩ := run_need_ok.1 hw
    exact .inl ⟨hop, rfl, a, v, ha, hav, hwrite⟩
  · exact .inr ⟨hop, exec_yields hop _ _ _ h⟩

/-- An instruction changes no value but its own. -/
theorem exec_lookup?_ne (h : (exec call mod i f).run s = (.ok f', s')) {w : ValueId} (hw : w ≠ i.id) (hi : (0 : Int) ≤ i.id) :
    lookup? f'.values w = lookup? f.values w := by
  rcases exec_ok h with ⟨-, -, a, x, -, -, hwrite⟩ | ⟨-, rfl | ⟨x, rfl⟩⟩
  · rw [Frame.values_write? hwrite]
  · rfl
  · exact Frame.lookup?_define_ne hw hi

end Instructions

/-! ## Blocks -/

/-- The state after an instruction was counted. -/
def State.counted (s : State) : State := { s with meter := s.meter.countInst }

/-- The state after a block was noted. -/
def State.noted (s : State) (label : Text) : State := { s with meter := (s.meter.enter label).1 }

/-- The given instructions are executed one after the other, none of them faults. -/
inductive Executes (call : Caller) (mod : Module) : List ValueId → Frame → State → Frame → State → Prop
  | done {f s} : Executes call mod [] f s f s
  | step {v vs i f s f₁ s₁ f' s'} (hi : mod.inst? v = some i) (he : (exec call mod i f).run s.counted = (.ok f₁, s₁))
    (h : Executes call mod vs f₁ s₁ f' s') : Executes call mod (v :: vs) f s f' s'

/-- An instruction of a block stops, and with it the execution of the block. -/
inductive Halts (call : Caller) (mod : Module) (k : Block) (v : ValueId) (f : Frame) (s : State) :
    Except Stop Next × State → Prop
  | missing (hi : mod.inst? v = none) : Halts call mod k v f s (.error .stuck, s)
  | caught {i obj s'} (hi : mod.inst? v = some i) (he : (exec call mod i f).run s.counted = (.error (.thrown obj), s'))
    (hu : unwindsAt k v = true) : Halts call mod k v f s (.ok (.jump k.term.unwind { f with inflight := obj }), s')
  | stops {i e s'} (hi : mod.inst? v = some i) (he : (exec call mod i f).run s.counted = (.error e, s'))
    (hu : ∀ obj, e = .thrown obj → unwindsAt k v = false) : Halts call mod k v f s (.error e, s')

section Blocks

variable {call : Caller} {mod : Module} {k : Block} {ids : List ValueId} {f : Frame} {s : State}

theorem execFrom_cons (v : ValueId) (vs : List ValueId) : (execFrom call mod k (v :: vs) f).run s =
    match mod.inst? v with
    | none => (.error .stuck, s)
    | some i =>
      match (exec call mod i f).run s.counted with
      | (.ok f, s) => (execFrom call mod k vs f).run s
      | (.error (.thrown obj), s) =>
        if unwindsAt k v then (.ok (.jump k.term.unwind { f with inflight := obj }), s) else (.error (.thrown obj), s)
      | (.error e, s) => (.error e, s) := by
  rw [execFrom, run_bind, run_need]
  cases mod.inst? v with
  | none => rfl
  | some i =>
    have hcount : (modify fun s => { s with meter := s.meter.countInst } : RunM Unit).run s = (.ok (), s.counted) := rfl
    dsimp only
    rw [run_bind_of_ok hcount, run_bind_of_ok (run_attempt _ _)]
    rcases (exec call mod i f).run s.counted with ⟨e | f1, s1⟩
    · cases e with
      | thrown obj =>
        dsimp only
        split <;> rfl
      | _ => rfl
    · rfl

theorem execFrom_of_executes {f1 : Frame} {s1 : State} (h : Executes call mod ids f s f1 s1) :
    (execFrom call mod k ids f).run s = (execTerm mod k f1).run s1 := by
  induction h with
  | done => rfl
  | step hi he _ ih =>
    rw [execFrom_cons, hi]
    dsimp only
    rw [he]
    exact ih

/-- **How the execution of a block ends**: all instructions are executed and the terminator decides, or an
instruction stops. -/
theorem execFrom_cases (call : Caller) (mod : Module) (k : Block) (ids : List ValueId) (f : Frame) (s : State) :
    (∃ f1 s1, Executes call mod ids f s f1 s1 ∧ (execFrom call mod k ids f).run s = (execTerm mod k f1).run s1) ∨
      ∃ before v after f1 s1, ids = before ++ v :: after ∧ Executes call mod before f s f1 s1 ∧
        Halts call mod k v f1 s1 ((execFrom call mod k ids f).run s) := by
  induction ids generalizing f s with
  | nil => exact .inl ⟨f, s, .done, rfl⟩
  | cons v vs ih =>
    rw [execFrom_cons]
    cases hi : mod.inst? v with
    | none => exact .inr ⟨[], v, vs, f, s, rfl, .done, .missing hi⟩
    | some i =>
      dsimp only
      rcases he : (exec call mod i f).run s.counted with ⟨e | f1, s1⟩
      · refine .inr ⟨[], v, vs, f, s, rfl, .done, ?_⟩
        cases e with
        | thrown obj =>
          dsimp only
          split
          · rename_i hu
            exact .caught hi he hu
          · rename_i hu
            exact .stops hi he fun _ _ => by simpa using hu
        | _ => exact .stops hi he nofun
      · rcases ih f1 s1 with ⟨f2, s2, hx, heq⟩ | ⟨before, w, after, f2, s2, rfl, hx, hh⟩
        · exact .inl ⟨f2, s2, .step hi he hx, heq⟩
        · exact .inr ⟨v :: before, w, after, f2, s2, rfl, .step hi he hx, hh⟩

end Blocks

/-! ## Instructions with given operands -/

/-- The instruction sets its value to what a computation gives. -/
def Defines (call : Caller) (mod : Module) (i : Inst) (f : Frame) (x : RunM Value) : Prop :=
  exec call mod i f = x >>= fun v => pure (f.define i v)

/-- The instruction performs a computation and leaves the frame as it is. -/
def Acts (call : Caller) (mod : Module) (i : Inst) (f : Frame) (x : RunM Unit) : Prop :=
  exec call mod i f = x >>= fun _ => pure f

/-- The operands of an instruction have the given values. -/
def Frame.Operands (f : Frame) (i : Inst) (xs : List Value) : Prop :=
  List.Forall₂ (fun a x => lookup? f.values a = some x) i.args xs

variable {call : Caller} {mod : Module} {i : Inst} {f : Frame} {x y z : Value} {xs : List Value}

theorem Frame.value_eq {v : ValueId} (h : lookup? f.values v = some x) : f.value v = pure x := by
  unfold Frame.value
  rw [h]
  rfl

namespace Frame.Operands

theorem get {n : Nat} (h : f.Operands i xs) (hn : xs[n]? = some x) :
    ∃ a, i.args[n]? = some a ∧ lookup? f.values a = some x := by
  unfold Frame.Operands at h
  generalize i.args = l at h ⊢
  induction h generalizing n with
  | nil => simp at hn
  | cons hx _ ih =>
    cases n with
    | zero =>
      obtain rfl := Option.some.inj hn
      exact ⟨_, rfl, hx⟩
    | succ n => exact ih hn

theorem arg {n : Nat} (h : f.Operands i xs) (hn : xs[n]? = some x) : f.arg i n = pure x := by
  obtain ⟨a, ha, hx⟩ := h.get hn
  unfold Frame.arg
  rw [ha]
  exact Frame.value_eq hx

end Frame.Operands

theorem defines_const (hop : i.op = .const) : Defines call mod i f (pure { i := i.imm, f := i.fimm }) := by
  simp only [Defines, exec, hop, pure_bind]

theorem defines_constNull (hop : i.op = .constNull) : Defines call mod i f (pure {}) := by
  simp only [Defines, exec, hop, pure_bind]

theorem defines_loadSlot (hop : i.op = .loadSlot) (hx : f.read? i.slot = some x) : Defines call mod i f (pure x) := by
  simp only [Defines, exec, hop, hx]
  rfl

/-- The operations that compute a value from two operands. -/
def computes : Op → Bool
  | .add | .sub | .mul | .div | .rem | .shl | .shr | .ushr | .and | .or | .xor => true
  | _ => false

theorem defines_compute (hop : computes i.op = true) (h : f.Operands i [x, y]) :
    Defines call mod i f (compute i.op i.ty x y) := by
  unfold Defines exec
  cases ho : i.op <;> rw [ho] at hop <;>
    first | (simp only [h.arg (n := 0) rfl, h.arg (n := 1) rfl, pure_bind]; done) | cases hop

theorem defines_icmp {a : ValueId} {j : Inst} (hop : i.op = .icmp) (h : f.Operands i [x, y]) (ha : i.args[0]? = some a)
    (hj : mod.inst? a = some j) :
    Defines call mod i f (compareBy (j.ty = .ref) (predicate? i.imm.toInt) x y) := by
  simp only [Defines, exec, hop, h.arg (n := 0) rfl, h.arg (n := 1) rfl, pure_bind, ha, Option.bind_some, hj]
  rfl

theorem acts_checkNull (hop : i.op = .checkNull) (h : f.Operands i [x]) : Acts call mod i f (checkNull x) := by
  simp only [Acts, exec, hop, h.arg (n := 0) rfl, pure_bind]

theorem acts_checkNonNeg (hop : i.op = .checkNonNeg) (h : f.Operands i [x]) : Acts call mod i f (checkNonNeg x) := by
  simp only [Acts, exec, hop, h.arg (n := 0) rfl, pure_bind]

theorem defines_allocArray {site : AllocSite} (hop : i.op = .allocArray) (hs : i.alloc = some site) (h : f.Operands i [x]) :
    Defines call mod i f (allocArray mod.method site.cls site.elem x >>= fun r => pure (.ofRef r)) := by
  simp only [Defines, exec, hop, hs, h.arg (n := 0) rfl, bind_assoc, pure_bind]
  rfl

theorem acts_arrayFill (hop : i.op = .arrayFill) (h : f.Operands i [x, y]) : Acts call mod i f (fillArray x y) := by
  simp only [Acts, exec, hop, h.arg (n := 0) rfl, h.arg (n := 1) rfl, pure_bind]

theorem acts_storeElem (hop : i.op = .storeElem) (h : f.Operands i [x, y, z]) :
    Acts call mod i f (setElement x y.int32.toInt (z.narrow (Kind.ofCode? i.imm.toUInt64.toUInt8.toNat))) := by
  simp only [Acts, exec, hop, h.arg (n := 0) rfl, h.arg (n := 1) rfl, h.arg (n := 2) rfl, pure_bind]

theorem defines_loadKlass (hop : i.op = .loadKlass) (h : f.Operands i [x]) :
    Defines call mod i f (classOf x >>= fun cls => pure { sym := cls }) := by
  simp only [Defines, exec, hop, h.arg (n := 0) rfl, bind_assoc, pure_bind]

theorem defines_lookup (hop : i.op = .lookupVirtual ∨ i.op = .lookupInterface) (h : f.Operands i [x]) :
    Defines call mod i f (lookupMethod (i.op = .lookupInterface) i.sym x.sym >>= fun key => pure { sym := key }) := by
  rcases hop with hop | hop <;> simp only [Defines, exec, hop, h.arg (n := 0) rfl, bind_assoc, pure_bind]

theorem mapM_value {l : List ValueId} (h : List.Forall₂ (fun a x => lookup? f.values a = some x) l xs) :
    l.mapM f.value = pure xs := by
  induction h with
  | nil => rfl
  | cons hx _ ih => rw [List.mapM_cons, Frame.value_eq hx, ih, pure_bind, pure_bind]

theorem calleeOf_looked {c : CallSite} (hb : c.dispatch.isBound = false) (hslot : lookup? f.values c.slot = some x) :
    calleeOf f i c = pure x.sym := by
  unfold calleeOf
  rw [if_neg (by simp [hb]), Frame.value_eq hslot, pure_bind]

/-- A call passes the values of its operands to its callee. -/
theorem execCall_eq {c : CallSite} {key : Text} {receiver : List Value} (hc : i.call = some c) (hkey : calleeOf f i c = pure key)
    (hr : receiverOf f c = pure receiver) (h : List.Forall₂ (fun a x => lookup? f.values a = some x) c.args xs) :
    execCall call f i = call key (receiver ++ xs) := by
  unfold execCall
  rw [hc]
  change (calleeOf f i c >>= _) = _
  simp only [hkey, hr, mapM_value h, pure_bind]

theorem exec_call (hop : i.op = .call) :
    exec call mod i f = execCall call f i >>= fun v => pure (if i.hasResult then f.define i v else f) := by
  unfold exec
  rw [hop]

end Bytelift.Machine
