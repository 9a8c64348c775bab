import Bytelift.Proofs.Lift.Cleanups
import Bytelift.Proofs.Lift.Sites

/-!
# What landingpads do

A landingpad keeps the exception and tries the rows that cover its bci in table order. What it does is told
by `actions`: it runs cleanup code, and it delivers the exception to a handler or passes it on to the caller.
The code of the landingpad performs these actions, whatever the cleanup code in between does, as long as it
comes to its end and enters neither the regions of the list nor the landingpad.

Results:
* `liftMethod_dispatch`: **a landingpad performs the actions of the exception table.**
-/

namespace Bytelift

open Ir List Machine Frame

namespace Machine

/-- Control passes blocks of a landingpad that enter no region. Only the frame is changed. -/
inductive Dispatches (call : Caller) (mod : Module) : Config → Config → Prop
  | here {c} : Dispatches call mod c c
  | step {c c₁ d} {k : Block} (hk : mod.block? c.block = some k) (hkind : k.kind = .landingpad ∨ k.kind = .dispatch)
    (hno : ∀ h, ¬ mod.EntersRegion h c.block) (hs : Step call mod c c₁) (hheap : c₁.state.heap = c.state.heap)
    (henv : c₁.state.env = c.state.env) (h : Dispatches call mod c₁ d) : Dispatches call mod c d

/-- The block raises an object in the caller. -/
def Raises (call : Caller) (mod : Module) (c : Config) (r : Ref) : Prop :=
  ∃ k s', mod.block? c.block = some k ∧
    (execFrom call mod k k.insts.toList c.frame).run (c.state.noted k.label) = (.error (.thrown (some r)), s')

end Machine

namespace Lift

variable {v : ValueId} {next b pad : BlockId} {bci : Int} {P : BlockId → Prop}

/-- What is done with an exception. -/
inductive Action
  /-- Runs the cleanup code of a region. -/
  | run (handler : Int)
  /-- Goes on at a handler. -/
  | deliver (handler : Int)
  /-- Raises the exception in the caller. -/
  | resume
  deriving DecidableEq, Repr

/-- What is to be done with an exception according to the given rows, in table order. `fits` tells which
classes the exception is an instance of, `met` the regions that were run before. -/
def actions (fits : Text → Bool) (met : List Int) : List ExceptionEntry → List Action
  | [] => [.resume]
  | e :: rows =>
    if e.isCleanup then
      if e.handler ∈ met then actions fits met rows else .run e.handler :: actions fits (e.handler :: met) rows
    else if e.catchesAny || fits e.catchType then [.deliver e.handler]
    else actions fits met rows

/-- From a configuration, control performs the given actions on an exception in order. After the cleanup code of a region this is said
of the runs in which the code comes to its end, and neither the region nor the landingpad is entered again before. -/
def Performs (call : Caller) (cx : Context) (mod : Module) (pad : BlockId) (r : Ref) : List Action → Config → Prop
  | [], _ => False
  | .run h :: acts, c => ∃ d c₁, Machine.Dispatches call mod c d ∧ (∀ h', mod.EntersRegion h' d.block ↔ h' = h) ∧
    Step call mod d c₁ ∧ c₁.block = cx.blockOf h ∧
    ∀ c', Excursion call mod (fun b => ¬ mod.EntersRegion h b ∧ b ≠ pad) h d c' → Performs call cx mod pad r acts c'
  | .deliver h :: acts, c => acts = [] ∧ ∃ d, Machine.Dispatches call mod c d ∧ d.block = cx.blockOf h ∧
    d.frame.read? ⟨.stack, 0⟩ = some (.ofRef r)
  | .resume :: acts, c => acts = [] ∧ ∃ d, Machine.Dispatches call mod c d ∧ Machine.Raises call mod d r

variable {cx : Context} {s : State} {m : Module} {call : Caller} {c c' : Config} {slot : Slot} {r : Ref} {cls : Text}
  {classes : Hierarchy}

/-- An exception of a class is kept in a slot. -/
structure Holding (m : Module) (slot : Slot) (r : Ref) (cls : Text) (classes : Hierarchy) (c : Config) : Prop where
  size : c.frame.values.size = m.insts.size
  caught : c.frame.read? slot = some (.ofRef r)
  object : ∃ o, c.state.heap[r]? = some o ∧ o.cls = cls
  classes : c.state.env.classes = classes

/-! ## The blocks of a landingpad -/

/-- The slot is a temporary, so that a store to the stack leaves it alone. -/
theorem Holding.executes (call : Caller) (hfin : Finished cx s) (hc : Holding s.mod slot r cls classes c) (hslot : slot.space = .temp)
    {tests : List Inst} {t : Terminator} (hd : Delivers s c.block slot tests v t) :
    ∃ k a b rest f s', s.mod.block? c.block = some k ∧ k.kind = .dispatch ∧ k.term = t ∧ k.insts.toList = a :: b :: rest ∧
      Forall₂ (fun w i => s.mod.inst? w = some i) rest tests ∧
      Executes call s.mod [a, b] c.frame (c.state.noted k.label) f s' ∧ s'.heap = c.state.heap ∧
      s'.env = c.state.env ∧ f.values.size = s.mod.insts.size ∧ f.read? slot = some (.ofRef r) ∧
      f.read? ⟨.stack, 0⟩ = some (.ofRef r) ∧ lookup? f.values v = some (.ofRef r) := by
  obtain ⟨i, j, ⟨k, hk, hkind, ht, his⟩, rfl, hi, hislot, hj, hjslot, hargs⟩ := hd
  obtain ⟨a, _, ha, htail, hids⟩ := forall₂_cons_right_iff.1 his
  obtain ⟨b, rest, hb, hrest, rfl⟩ := forall₂_cons_right_iff.1 htail
  have hval := hfin.lookup?_define hc.size hk (by simp [hids]) ha (.ofRef r)
  obtain ⟨f, hf⟩ := (c.frame.define i (.ofRef r)).exists_write? j.slot (.ofRef r) (hjslot ▸ Int.le_refl 0)
  refine ⟨k, a, b, rest, f, (c.state.noted k.label).counted.counted, hk, hkind, ht, hids, hrest,
    .step ha (run_exec_loadSlot hi (hislot ▸ hc.caught)) (.step hb (run_exec_storeSlot hj hargs hval hf) .done),
    rfl, rfl, ?_, ?_, ?_, ?_⟩
  · rw [values_write? hf, size_define, hc.size]
  · have hne : slot ≠ j.slot := by
      rintro rfl
      rw [hjslot] at hslot
      cases hslot
    rw [read?_write? hf, if_neg hne, read?_define, hc.caught]
  · rw [read?_write? hf, hjslot, if_pos rfl]
  · rw [values_write? hf, hval]

theorem Holding.catchAny (call : Caller) (hfin : Finished cx s) (hc : Holding s.mod slot r cls classes c) (hslot : slot.space = .temp)
    {x : BlockId} (hd : Delivers s c.block slot [] v (.goto x)) :
    ∃ c', Step call s.mod c c' ∧ c'.block = x ∧ c'.frame.read? ⟨.stack, 0⟩ = some (.ofRef r) ∧
      c'.state.heap = c.state.heap ∧ c'.state.env = c.state.env := by
  obtain ⟨k, a, b, rest, f, s', hk, -, ht, hids, hrest, hx, hheap, henv, -, -, hstack, -⟩ := hc.executes call hfin hslot hd
  cases hrest
  rw [← hids] at hx
  exact ⟨_, step_of_executes hk hx (run_execTerm_goto ht), rfl, hstack, hheap, henv⟩

/-- A catch of a class delivers an instance of it and leaves every other exception to the next block. -/
theorem Holding.test (call : Caller) (hfin : Finished cx s) (hc : Holding s.mod slot r cls classes c) (hslot : slot.space = .temp)
    {t : Inst} {x : BlockId} (hd : Delivers s c.block slot [t] v (.condBr t.id x next))
    (hop : t.op = .instanceOf) (hargs : t.args = [v]) :
    ∃ c', Step call s.mod c c' ∧ c'.block = (if classes.isSubclass cls t.sym then x else next) ∧
      c'.frame.read? ⟨.stack, 0⟩ = some (.ofRef r) ∧ Holding s.mod slot r cls classes c' ∧
      c'.state.heap = c.state.heap ∧ c'.state.env = c.state.env := by
  obtain ⟨k, a, b, rest, f, s', hk, -, ht, hids, hrest, hx, hheap, henv, hsize, hcaught, hstack, hval⟩ :=
    hc.executes call hfin hslot hd
  obtain ⟨o, ho, hcls⟩ := hc.object
  obtain _ | ⟨hw, ⟨⟩⟩ := hrest
  rename_i w
  have hfits : s'.counted.env.classes.isSubclass o.cls t.sym = classes.isSubclass cls t.sym := by
    rw [hcls, ← hc.classes]
    exact congrArg (fun e => Hierarchy.isSubclass e.classes cls t.sym) henv
  have hobject : s'.counted.heap[r]? = some o := by
    rw [← ho, ← hheap]
    rfl
  have hexec : (exec call s.mod t f).run s'.counted =
      (.ok (f.define t (.ofBool (classes.isSubclass cls t.sym))), s'.counted) := by
    rw [← hfits]
    exact run_exec_instanceOf hop hargs hval hobject
  have hall : Executes call s.mod k.insts.toList c.frame (c.state.noted k.label)
      (f.define t (.ofBool (classes.isSubclass cls t.sym))) s'.counted := by
    rw [hids]
    exact executes_append.2 ⟨f, s', hx, .step hw hexec .done⟩
  have hbit := hfin.lookup?_define hsize hk (by simp [hids]) hw (.ofBool (classes.isSubclass cls t.sym))
  refine ⟨⟨_, f.define t (.ofBool (classes.isSubclass cls t.sym)), s'.counted⟩, step_of_executes hk hall ?_, rfl,
    by rw [read?_define, hstack],
    ⟨by rw [size_define, hsize], by rw [read?_define, hcaught], ⟨o, hobject, hcls⟩, ?_⟩, hheap, henv⟩
  · unfold execTerm
    rw [ht]
    rw [run_bind_of_ok (run_value_ok.2 ⟨hbit, rfl⟩)]
    cases classes.isSubclass cls t.sym <;> rfl
  · rw [← hc.classes]
    exact congrArg Env.classes henv

theorem Holding.resume (call : Caller) (hfin : Finished cx s) (hc : Holding s.mod slot r cls classes c) {i : Inst}
    (hh : s.mod.Holds c.block .resume [i] (.resume i.id)) (hop : i.op = .loadSlot) (hslot : i.slot = slot) :
    Machine.Raises call s.mod c r := by
  obtain ⟨k, hk, -, ht, his⟩ := hh
  obtain ⟨a, _, ha, ⟨⟩, hids⟩ := forall₂_cons_right_iff.1 his
  have hval := hfin.lookup?_define hc.size hk (by simp [hids]) ha (.ofRef r)
  have hx : Executes call s.mod k.insts.toList c.frame (c.state.noted k.label) (c.frame.define i (.ofRef r))
      (c.state.noted k.label).counted := by
    rw [hids]
    exact .step ha (run_exec_loadSlot hop (hslot ▸ hc.caught)) .done
  refine ⟨k, (c.state.noted k.label).counted, hk, (execFrom_of_executes hx).trans ?_⟩
  unfold execTerm
  rw [ht]
  rw [run_bind_of_ok (run_value_ok.2 ⟨hval, rfl⟩)]
  rfl

/-- A block that enters a region can be executed. -/
theorem Enters.exists_step (call : Caller) (hfin : Finished cx s) {kind : BlockKind} {h : Int}
    (he : Enters cx s kind c.block h next) (hsize : c.frame.values.size = s.mod.insts.size) :
    ∃ c', Step call s.mod c c' := by
  obtain ⟨D, hg, -⟩ := hfin.good
  obtain ⟨q, hq, -, key, i, j, -, ⟨k, hk, -, ht, his⟩, hi, -, hj, hslot, hargs⟩ := he
  obtain ⟨n, hn, -⟩ := hg.selector q hq
  obtain ⟨a, _, ha, hrest, hids⟩ := forall₂_cons_right_iff.1 his
  obtain ⟨b, _, hb, ⟨⟩, rfl⟩ := forall₂_cons_right_iff.1 hrest
  have hval := hfin.lookup?_define hsize hk (by simp [hids]) ha { i := i.imm, f := i.fimm }
  obtain ⟨f, hf⟩ := (c.frame.define i { i := i.imm, f := i.fimm }).exists_write? j.slot { i := i.imm, f := i.fimm }
    (by rw [hslot, hn]; exact Int.natCast_nonneg n)
  have hx : Executes call s.mod k.insts.toList c.frame (c.state.noted k.label) f
      (c.state.noted k.label).counted.counted := by
    rw [hids]
    exact .step ha (run_exec_const hi) (.step hb (run_exec_storeSlot hj hargs hval hf) .done)
  exact ⟨_, step_of_executes hk hx (run_execTerm_goto ht)⟩

/-- **A landingpad keeps the exception in its slot.** -/
theorem PadOk.step (call : Caller) (hfin : Finished cx s) (hp : PadOk cx s bci c.block)
    (hr : c.frame.inflight = some r) (hsize : c.frame.values.size = s.mod.insts.size)
    (ho : ∃ o, c.state.heap[r]? = some o ∧ o.cls = cls) (hclasses : c.state.env.classes = classes) :
    ∃ (n : Nat) (c' : Config), Step call s.mod c c' ∧ s.mod.temps[n]? = some (caughtName bci) ∧
      Attempts cx s ⟨.temp, n⟩ (candidates [] (cx.table.covering bci)) c'.block ∧
      Holding s.mod ⟨.temp, n⟩ r cls classes c' ∧ c'.state.heap = c.state.heap ∧ c'.state.env = c.state.env ∧
      ∀ h, ¬ s.mod.EntersRegion h c.block := by
  obtain ⟨n, k, token, exc, st, first, -, hk, -, -, hholds, htoken, hexc, hst, hslot, hargs, hname, hattempts, -⟩ := hp
  have hno (h : Int) : ¬ s.mod.EntersRegion h c.block := by
    rintro ⟨n', hname', hstore⟩
    obtain ⟨i, hi, hop, hslot'⟩ := (stores_iff_of_holds hholds).1 hstore
    simp only [mem_cons, not_mem_nil, or_false] at hi
    rcases hi with rfl | rfl | rfl
    · rw [htoken] at hop
      cases hop
    · rw [hexc] at hop
      cases hop
    · obtain ⟨-, heq⟩ := Slot.mk.inj (hslot'.symm.trans hslot)
      obtain rfl := Int.ofNat.inj heq
      have hhead := congrArg List.head? (Option.mem_unique hname' hname)
      rw [head?_selectorName, head?_caughtName] at hhead
      exact absurd hhead (by decide)
  obtain ⟨k', hk', -, ht, his⟩ := hholds
  obtain rfl := Option.mem_unique hk hk'
  obtain ⟨v1, _, h1, hrest, hids⟩ := forall₂_cons_right_iff.1 his
  obtain ⟨v2, _, h2, hlast, rfl⟩ := forall₂_cons_right_iff.1 hrest
  obtain ⟨v3, _, h3, ⟨⟩, rfl⟩ := forall₂_cons_right_iff.1 hlast
  have hval := hfin.lookup?_define hsize hk (by simp [hids]) h2 (.ofRef r)
  obtain ⟨f, hf⟩ := (c.frame.define exc (.ofRef r)).exists_write? st.slot (.ofRef r)
    (by rw [hslot]; exact Int.natCast_nonneg n)
  have hcatch : (exec call s.mod exc c.frame).run (c.state.noted k.label).counted.counted =
      (.ok (c.frame.define exc (.ofRef r)), (c.state.noted k.label).counted.counted) := by
    rw [run_exec_exception hexc, hr]
    rfl
  have hx : Executes call s.mod k.insts.toList c.frame (c.state.noted k.label) f
      (c.state.noted k.label).counted.counted.counted := by
    rw [hids]
    exact .step h1 (run_exec_landingpad htoken hr) (.step h2 hcatch
      (.step h3 (run_exec_storeSlot hst hargs hval hf) .done))
  exact ⟨n, _, step_of_executes hk hx (run_execTerm_goto ht), hname, hattempts,
    ⟨by rw [values_write? hf, size_define, hsize], by rw [read?_write? hf, hslot, if_pos rfl], ho, hclasses⟩,
    rfl, rfl, hno⟩

/-! ## Cleanup code in between -/

namespace Finished

/-- Only the landingpad of a bci stores into the slot of its exception. -/
theorem eq_of_stores_caught (hfin : Finished cx s) {p : BlockId} (hp : (bci, p) ∈ s.pads) {n : Nat}
    (hn : s.mod.temps[n]? = some (caughtName bci)) (hst : s.mod.Stores b ⟨.temp, n⟩) : b = p := by
  obtain ⟨D, hg, -⟩ := hfin.good
  obtain ⟨k, v, i, hk, hv, hi, hop, hslot⟩ := hst
  have hname {n' : Nat} {name : Text} (hs : i.slot = ⟨.temp, n'⟩) (hn' : s.mod.temps[n']? = some name) :
      name = caughtName bci := by
    obtain ⟨-, heq⟩ := Slot.mk.inj (hs.symm.trans hslot)
    obtain rfl := Int.ofNat.inj heq
    exact Option.mem_unique hn' hn
  cases (hg.block hk).store hv hi hop (by rw [hslot]) with
  | selector hs hn' =>
    have hhead := congrArg List.head? (hname hs hn')
    rw [head?_selectorName, head?_caughtName] at hhead
    exact absurd hhead (by decide)
  | caught hs hn' hkind hstart =>
    obtain rfl := caughtName_injective (hname hs hn')
    have hmem := hfin.mem_pads_of_kind hk hkind
    rw [hstart] at hmem
    exact (Prod.mk.inj (inj_on_of_nodup_map hg.padsNodup hmem hp rfl)).2
  | other hs hn' _ hexc => exact absurd (hname hs hn') (hexc bci)

/-- **The exception is still there behind cleanup code.** -/
theorem holding_of_excursion (hfin : Finished cx s) (hcall : ∀ key args, Machine.Keeps (call key args))
    {h : Int} {p : BlockId} (hp : (bci, p) ∈ s.pads) {n : Nat} (hn : s.mod.temps[n]? = some (caughtName bci))
    (he : Enters cx s .dispatch c.block h next) (hP : ∀ b, P b → b ≠ p)
    (hx : Excursion call s.mod P h c c') (hc : Holding s.mod ⟨.temp, n⟩ r cls classes c) :
    Holding s.mod ⟨.temp, n⟩ r cls classes c' := by
  obtain ⟨D, hg, -⟩ := hfin.good
  have hno {b : BlockId} (hb : b ≠ p) : ¬ s.mod.Stores b ⟨.temp, n⟩ := fun hst =>
    hb (hfin.eq_of_stores_caught hp hn hst)
  -- the block that enters the region is not the landingpad
  have hne : c.block ≠ p := by
    intro heq
    obtain ⟨q, -, -, -, -, -, -, ⟨k, hk, hkind, -⟩, -⟩ := he
    obtain ⟨-, k', -, -, -, -, -, hk', -, -, ⟨k'', hk'', hkind'', -⟩, -⟩ := hg.pad hp
    rw [heq] at hk
    obtain rfl := Option.mem_unique hk hk''
    rw [hkind] at hkind''
    cases hkind''
  have hsize := hx.size.trans hc.size
  have hcaught := (hx.read? (hno hne) fun b hb => hno (hP b hb)).trans hc.caught
  obtain ⟨c1, e, hin, hpath, -, hout⟩ := hx
  have hlater := ((hin.later hcall).trans (hpath.later hcall)).trans (hout.later hcall)
  obtain ⟨o, ho, hcls⟩ := hc.object
  obtain ⟨o', ho', hcls'⟩ := hlater.objects ho
  exact {
    size := hsize
    caught := hcaught
    object := ⟨o', ho', hcls'.trans hcls⟩
    classes := hlater.classes.trans hc.classes }

end Finished

/-! ## All the actions -/

theorem Attempts.first {e : ExceptionEntry} {rows : List ExceptionEntry} (h : Attempts cx s slot (e :: rows) b) :
    (∃ next, Tries cx s slot e b next ∧ Attempts cx s slot rows next) ∨
      e.isCleanup = false ∧ e.catchesAny = true ∧ ∃ v, Delivers s b slot [] v (.goto (cx.blockOf e.handler)) := by
  generalize hl : e :: rows = l at h
  cases h with
  | resume => cases hl
  | step h hr =>
    cases hl
    exact .inl ⟨_, h, hr⟩
  | catchAny hc ha h =>
    cases hl
    exact .inr ⟨hc, ha, _, h⟩

/-- What is performed behind a block that only dispatches is performed from it. -/
theorem Performs.of_dispatch {acts : List Action} {k : Block} (hk : m.block? c.block = some k)
    (hkind : k.kind = .landingpad ∨ k.kind = .dispatch) (hno : ∀ h, ¬ m.EntersRegion h c.block) (hs : Step call m c c')
    (hheap : c'.state.heap = c.state.heap) (henv : c'.state.env = c.state.env) (h : Performs call cx m pad r acts c') :
    Performs call cx m pad r acts c := by
  cases acts with
  | nil => exact h
  | cons a acts =>
    cases a with
    | run handler =>
      obtain ⟨d, c1, hd, hrest⟩ := h
      exact ⟨d, c1, .step hk hkind hno hs hheap henv hd, hrest⟩
    | deliver handler =>
      obtain ⟨hnil, d, hd, hrest⟩ := h
      exact ⟨hnil, d, .step hk hkind hno hs hheap henv hd, hrest⟩
    | resume =>
      obtain ⟨hnil, d, hd, hrest⟩ := h
      exact ⟨hnil, d, .step hk hkind hno hs hheap henv hd, hrest⟩

/-- A block that delivers an exception enters no region. -/
theorem Delivers.not_enters {tests : List Inst} {t : Terminator}
    (hd : Delivers s b slot tests v t) (htests : ∀ i ∈ tests, i.op ≠ .storeSlot) (h : Int) : ¬ s.mod.EntersRegion h b := by
  obtain ⟨i, j, hholds, -, hi, -, hj, hslot, -⟩ := hd
  rintro ⟨n, -, hstore⟩
  obtain ⟨x, hx, hop, hxslot⟩ := (stores_iff_of_holds hholds).1 hstore
  simp only [mem_cons] at hx
  rcases hx with rfl | rfl | hx
  · rw [hi] at hop
    cases hop
  · rw [hslot] at hxslot
    cases hxslot
  · exact htests x hx hop

section Performing

variable (hfin : Finished cx s) (hsize : s.mod.blocks.size ≤ 2 ^ 31)
  (hcall : ∀ key args, Machine.Keeps (call key args)) {bci : Int} {p : BlockId} (hp : (bci, p) ∈ s.pads) {n : Nat}
  (hn : s.mod.temps[n]? = some (caughtName bci))

include hfin

theorem Holding.performs_test {e : ExceptionEntry} {t : Inst} {acts : List Action}
    (hc : Holding s.mod ⟨.temp, n⟩ r cls classes c)
    (hd : Delivers s c.block ⟨.temp, n⟩ [t] v (.condBr t.id (cx.blockOf e.handler) next)) (hop : t.op = .instanceOf)
    (hsym : t.sym = e.catchType) (hargs : t.args = [v])
    (hrest : ∀ c', c'.block = next → Holding s.mod ⟨.temp, n⟩ r cls classes c' → Performs call cx s.mod pad r acts c') :
    Performs call cx s.mod pad r (if classes.isSubclass cls e.catchType then [.deliver e.handler] else acts) c := by
  have hno (h : Int) : ¬ s.mod.EntersRegion h c.block := hd.not_enters (by simp [hop]) h
  obtain ⟨c1, hs, hblock, hstack, hc1, hheap, henv⟩ := hc.test call hfin rfl hd hop hargs
  obtain ⟨-, -, ⟨k, hk, hkind, -⟩, -⟩ := hd
  rw [hsym] at hblock
  split
  · rename_i hfits
    rw [if_pos hfits] at hblock
    exact ⟨rfl, c1, .step hk (.inr hkind) hno hs hheap henv .here, hblock, hstack⟩
  · rename_i hfits
    rw [if_neg hfits] at hblock
    exact (hrest c1 hblock hc1).of_dispatch hk (.inr hkind) hno hs hheap henv

include hsize hcall hp hn

/-- **The blocks of a landingpad perform the actions of their rows.** -/
theorem Holding.performs {met : List Int} {rows : List ExceptionEntry} (ha : Attempts cx s ⟨.temp, n⟩ (candidates met rows) c.block)
    (hc : Holding s.mod ⟨.temp, n⟩ r cls classes c) :
    Performs call cx s.mod p r (actions (classes.isSubclass cls) met rows) c := by
  obtain ⟨D, hg, -⟩ := hfin.good
  induction rows generalizing met c with
  | nil =>
    obtain ⟨hh, hop, hslot⟩ := ha
    obtain ⟨k, s', hk, hr⟩ := hc.resume call hfin hh hop hslot
    exact ⟨rfl, c, .here, k, s', hk, hr⟩
  | cons e rows ih =>
    unfold candidates at ha
    unfold actions
    by_cases hcl : e.isCleanup = true
    · rw [if_pos hcl] at ha ⊢
      by_cases hmet : e.handler ∈ met
      · rw [if_pos hmet] at ha ⊢
        exact ih ha hc
      rw [if_neg hmet] at ha ⊢
      have htry : ∃ next, Enters cx s .dispatch c.block e.handler next ∧
          Attempts cx s ⟨.temp, n⟩ (candidates (e.handler :: met) rows) next := by
        rcases ha.first with ⟨next, _ | hc', hr⟩ | ⟨hc', -⟩
        · exact ⟨next, ‹_›, hr⟩
        · rw [hcl] at hc'
          cases hc'
        · rw [hcl] at hc'
          cases hc'
      obtain ⟨next, he, hr⟩ := htry
      obtain ⟨c1, hs⟩ := he.exists_step call hfin hc.size
      refine ⟨c, c1, .here, he.entersRegion_iff hg.toGoodRegions, hs, (he.selects hs).1, fun c' hx => ?_⟩
      have hnext : c'.block = next := hfin.excursion hsize he (fun b hb => hb.1) hx
      exact ih (hnext ▸ hr) (hfin.holding_of_excursion hcall hp hn he (fun b hb => hb.2) hx hc)
    · rw [if_neg hcl] at ha ⊢
      by_cases hany : e.catchesAny = true
      · rw [if_pos hany] at ha
        rw [if_pos (by rw [hany]; rfl)]
        have hdeliver : ∃ v, Delivers s c.block ⟨.temp, n⟩ [] v (.goto (cx.blockOf e.handler)) := by
          rcases ha.first with ⟨next, hc' | ⟨-, ha'⟩, -⟩ | ⟨-, -, h⟩
          · exact absurd hc' hcl
          · rw [hany] at ha'
            cases ha'
          · exact h
        obtain ⟨v, hd⟩ := hdeliver
        have hno (h : Int) : ¬ s.mod.EntersRegion h c.block := hd.not_enters (by simp) h
        obtain ⟨c1, hs, hblock, hstack, hheap, henv⟩ := hc.catchAny call hfin rfl hd
        obtain ⟨-, -, ⟨k, hk, hkind, -⟩, -⟩ := hd
        exact ⟨rfl, c1, .step hk (.inr hkind) hno hs hheap henv .here, hblock, hstack⟩
      · rw [if_neg hany] at ha
        rw [Bool.not_eq_true] at hany
        rw [hany, Bool.false_or]
        have htest : ∃ v t next, Delivers s c.block ⟨.temp, n⟩ [t] v (.condBr t.id (cx.blockOf e.handler) next) ∧
            t.op = .instanceOf ∧ t.sym = e.catchType ∧ t.args = [v] ∧ Attempts cx s ⟨.temp, n⟩ (candidates met rows) next := by
          rcases ha.first with ⟨next, hc' | ⟨-, -, h, hop, hsym, hargs, -⟩, hr⟩ | ⟨-, ha', -⟩
          · exact absurd hc' hcl
          · exact ⟨_, _, next, h, hop, hsym, hargs, hr⟩
          · rw [hany] at ha'
            cases ha'
        obtain ⟨v, t, next, hd, hop, hsym, hargs, hr⟩ := htest
        exact hc.performs_test hfin hd hop hsym hargs fun c' hblock hc' => ih (hblock ▸ hr) hc'

end Performing

/-- An exception at a landingpad is dealt with as the rows say that cover its bci. -/
theorem performs_of_isPad {m : Method} {settings : Settings} {mod : Module} (h : liftMethod m settings = .ok mod)
    (hcx : context m settings = .ok cx) (hsize : mod.blocks.size ≤ 2 ^ 31) {p : BlockId} (hp : mod.IsPad bci p)
    (hkeeps : ∀ key args, Machine.Keeps (call key args)) {o : Object} (hc : c.block = p) (hr : c.frame.inflight = some r) (hvalues : c.frame.values.size = mod.insts.size)
    (ho : c.state.heap[r]? = some o) :
    Performs call cx mod p r (actions (c.state.env.classes.isSubclass o.cls) [] (HandlerTable.covering m.exceptions bci)) c := by
  obtain ⟨s, hfin, rfl⟩ := liftMethod_finished h hcx
  obtain ⟨rfl, -, -⟩ := context_ok hcx
  obtain ⟨D, hg, -⟩ := hfin.good
  have hmem := hfin.isPad_iff.1 hp
  have hpad := hg.pad hmem
  subst hc
  obtain ⟨n, c', hs, hn, ha, hc', hheap, henv, hno⟩ := hpad.step call hfin hr hvalues ⟨o, ho, rfl⟩ rfl
  obtain ⟨k, hk, hkind⟩ := hpad.unwindDest
  exact (hc'.performs hfin hsize hkeeps hmem hn ha).of_dispatch hk (.inl hkind) hno hs hheap henv

end Lift

/-- **A landingpad performs the actions of the exception table.** Its descriptor has one clause for each row that
it may have to try, in the same order. An exception on its way to the landingpad is dealt with as the rows that
cover the bci say, provided that the cleanup code that is run comes to its end, and enters neither its region
again nor the landingpad on the way. Calls may do anything that keeps classes and objects. -/
theorem liftMethod_dispatch {m : Method} {settings : Settings} {mod : Module} {cx : Lift.Context}
    (h : liftMethod m settings = .ok mod) (hcx : Lift.context m settings = .ok cx) (hsize : mod.blocks.size ≤ 2 ^ 31)
    {bci : Int} {p : BlockId} (hp : mod.IsPad bci p) :
    (∃ k d, mod.block? p = some k ∧ k.pad = some d ∧ d.bci = bci ∧
      d.clauses = (Lift.candidates [] (HandlerTable.covering m.exceptions bci)).map (Lift.clauseOf cx)) ∧
    ∀ call, (∀ key args, Machine.Keeps (call key args)) → ∀ (c : Config) r o, c.block = p → c.frame.inflight = some r → c.frame.values.size = mod.insts.size →
      c.state.heap[r]? = some o →
      Lift.Performs call cx mod p r
        (Lift.actions (c.state.env.classes.isSubclass o.cls) [] (HandlerTable.covering m.exceptions bci)) c := by
  obtain ⟨s, hfin, rfl⟩ := Lift.liftMethod_finished h hcx
  obtain ⟨rfl, -, -⟩ := Lift.context_ok hcx
  obtain ⟨D, hg, -⟩ := hfin.good
  have hmem := hfin.isPad_iff.1 hp
  have hpad := hg.pad hmem
  constructor
  · obtain ⟨-, k, -, -, -, -, cleanup, hk, -, -, -, -, -, -, -, -, -, -, hd⟩ := hpad
    exact ⟨_, _, hk, hd, rfl, rfl⟩
  · rintro call hkeeps c r o rfl hr hvalues ho
    exact Lift.performs_of_isPad h hcx hsize hp hkeeps rfl hr hvalues ho

/-- A division by zero in the quotient runs the cleanup code at bci 4 and is then passed on. -/
theorem guardedQuotient_dispatch : ∃ mod cx p, liftMethod guardedQuotient {} = .ok mod ∧ mod.IsPad 2 p ∧
    Lift.Performs (Machine.invokeAt 8) cx mod p 0 [.run 4, .resume]
      ⟨p, { args := [], locals := #[], stack := #[], temps := #[], values := Array.replicate mod.insts.size {}, inflight := some 0 },
        { env := Env.new {}, heap := #[{ cls := Machine.arithmeticClass }] }⟩ := by
  have hlifted : (Lift.lifts guardedQuotient fun mod _ => mod.blocks.size ≤ 2 ^ 31 &&
        mod.blocks.toList.zipIdx.any fun (k, n) => (mod.block? n == some k) && k.pad.any (·.bci == 2)) = true := by
    decide +kernel
  obtain ⟨mod, cx, hmod, hcx, hlifted⟩ := Lift.exists_of_lifts hlifted
  simp only [Bool.and_eq_true, decide_eq_true_eq, List.any_eq_true, beq_iff_eq] at hlifted
  obtain ⟨hsize, ⟨k, n⟩, -, hk, hpad⟩ := hlifted
  obtain ⟨d, hd, hbci⟩ := (Option.any_eq_true _ _).1 hpad
  have hp : mod.IsPad 2 n := ⟨k, d, hk, hd, by simpa using hbci⟩
  obtain ⟨-, hall⟩ := liftMethod_dispatch hmod hcx hsize hp
  exact ⟨mod, cx, n, hmod, hp, hall _ (Machine.invokeAt_keeps 8) _ 0 { cls := Machine.arithmeticClass } rfl rfl (by simp) rfl⟩

end Bytelift
