import Bytelift.Proofs.Ir.Verification
import Bytelift.Proofs.Machine.Runs

/-!
# Histories of an activation

A history lists what an activation did, the latest first: the instructions that it executed with the values that they left, those that
faulted, and the moves from block to block. `Visits` gives the stages that an activation comes to, each with its history. A stage is a
block with the instructions that are still to be executed in it; the run of the activation is the run from each stage that it visits
(`Visits.outcome`).

`Recent` says of a value that its instruction was executed and that nothing happened since but the execution of instructions and moves
into blocks that extend the block before. A block starts with the values that are carried into it, and this is kept by every move: a
continuation block has one predecessor and no landingpad, so it is entered from the end of that block only.

Result: `freeze_defined`: **in the runs of a frozen module every value that is used is recent**.
-/

namespace Bytelift.Machine

open Ir List

variable {b : BlockId} {k : Block}

/-- What an activation did. -/
inductive Event
  /-- An instruction was executed, and its value is the given one since. -/
  | executed (v : ValueId) (x : Value)
  | faulted (v : ValueId)
  | moved (source target : BlockId)

/-- An event that leaves the values in reach: the execution of an instruction, and a move into a block that extends the one before. -/
def Event.Passes (mod : Module) : Event → Prop
  | .executed _ _ => True
  | .faulted _ => False
  | .moved source target => mod.Extends target source

/-- A stage in an activation: a block, the instructions in it that are still to be executed, the frame, the state, and the number of
blocks that may still be entered. -/
structure Stage where
  block : BlockId
  rest : List ValueId
  frame : Frame
  state : State
  fuel : Nat

/-- How the activation ends from a stage on. -/
def Stage.outcome (call : Caller) (mod : Module) (p : Stage) : Except Stop Value × State :=
  match mod.block? p.block with
  | none => (.error .stuck, p.state)
  | some k =>
    match (execFrom call mod k p.rest p.frame).run p.state with
    | (.error e, s) => (.error e, s)
    | (.ok (.done v), s) => (.ok v, s)
    | (.ok (.jump b f), s) => runBlocks call mod p.fuel b f s

/-- The block exists, and the budget allows to enter it. -/
def Enters (mod : Module) (b : BlockId) (k : Block) (s : State) : Prop :=
  mod.block? b = some k ∧ (s.meter.enter k.label).2 = true

/-- The stages that the activation of a module visits, with their histories. -/
inductive Visits (call : Caller) (mod : Module) (args : List Value) (s : State) : Stage → List Event → Prop
  | start {f k} : args.length = mod.params.length → newFrame? mod args = some f → Enters mod mod.entry k s →
      Visits call mod args s ⟨mod.entry, k.insts.toList, f, s.noted k.label, s.meter.budget⟩ []
  | exec {b v vs f st n h i f' st'} : Visits call mod args s ⟨b, v :: vs, f, st, n⟩ h → mod.inst? v = some i →
      (exec call mod i f).run st.counted = (.ok f', st') →
      Visits call mod args s ⟨b, vs, f', st', n⟩ (.executed v ((lookup? f'.values v).getD {}) :: h)
  | fault {b v vs f st n h i k k' obj st'} : Visits call mod args s ⟨b, v :: vs, f, st, n + 1⟩ h → mod.inst? v = some i →
      (Machine.exec call mod i f).run st.counted = (.error (.thrown obj), st') → mod.block? b = some k → unwindsAt k v = true →
      Enters mod k.term.unwind k' st' →
      Visits call mod args s ⟨k.term.unwind, k'.insts.toList, { f with inflight := obj }, st'.noted k'.label, n⟩
        (.moved b k.term.unwind :: .faulted v :: h)
  | move {b f st n h k b' k' f' st'} : Visits call mod args s ⟨b, [], f, st, n + 1⟩ h → mod.block? b = some k →
      (execTerm mod k f).run st = (.ok (.jump b' f'), st') → Enters mod b' k' st' →
      Visits call mod args s ⟨b', k'.insts.toList, f', st'.noted k'.label, n⟩ (.moved b b' :: h)

section Outcomes

variable {call : Caller} {mod : Module} {args : List Value} {s : State} {p : Stage} {h : List Event}

/-- A run that enters a block goes on at the start of the block. -/
theorem runBlocks_enters (n : Nat) (f : Frame) (hk : Enters mod b k s) :
    runBlocks call mod (n + 1) b f s = Stage.outcome call mod ⟨b, k.insts.toList, f, s.noted k.label, n⟩ := by
  rcases hrun : (execFrom call mod k k.insts.toList f).run (s.noted k.label) with ⟨e | _ | _, t⟩
  all_goals simp [runBlocks, run_execBlock, Stage.outcome, hk.1, hk.2, hrun]

theorem Visits.exists_block (hv : Visits call mod args s p h) : ∃ k, mod.block? p.block = some k := by
  induction hv with
  | start _ _ hk => exact ⟨_, hk.1⟩
  | exec _ _ _ ih => exact ih
  | fault _ _ _ _ _ hk' _ | move _ _ _ hk' _ => exact ⟨_, hk'.1⟩

/-- **The run of an activation is the run from each stage that it visits.** -/
theorem Visits.outcome (hv : Visits call mod args s p h) : (activate call mod args).run s = p.outcome call mod := by
  induction hv with
  | start hargs hframe hk =>
    unfold activate failIf
    rw [hframe, if_neg (not_not.2 hargs)]
    exact runBlocks_enters _ _ hk
  | exec hv hi he ih =>
    obtain ⟨k, hk⟩ := hv.exists_block
    rw [ih]
    unfold Stage.outcome
    dsimp only at hk ⊢
    rw [hk]
    dsimp only
    rw [execFrom_cons, hi]
    dsimp only
    rw [he]
  | fault _ hi he hk hu hk' ih =>
    rw [ih, ← runBlocks_enters _ _ hk']
    unfold Stage.outcome
    dsimp only
    rw [hk]
    dsimp only
    rw [execFrom_cons, hi]
    dsimp only
    rw [he]
    dsimp only
    rw [if_pos hu]
  | move _ hk ht hk' ih =>
    rw [ih, ← runBlocks_enters _ _ hk']
    unfold Stage.outcome
    dsimp only
    rw [hk]
    dsimp only
    rw [execFrom, ht]

end Outcomes

/-! ## Recent values -/

/-- The instruction of a value was executed, the frame still holds what it left, and nothing happened since that takes values out of
reach. -/
def Recent (mod : Module) (h : List Event) (f : Frame) (a : ValueId) : Prop :=
  ∃ since x earlier, h = since ++ .executed a x :: earlier ∧ (∀ e ∈ since, e.Passes mod) ∧ lookup? f.values a = some x

/-- What is known at a stage: the instructions that were executed in the block are recent, and so are the values that are carried into
it. -/
structure Reaching (mod : Module) (p : Stage) (h : List Event) : Prop where
  size : p.frame.values.size = mod.insts.size
  own : ∃ k before, mod.block? p.block = some k ∧ k.insts.toList = before ++ p.rest ∧ ∀ a ∈ before, Recent mod h p.frame a
  carried : ∀ {a}, mod.CarriedInto p.block a → Recent mod h p.frame a

section Recent

variable {call : Caller} {mod : Module} {args : List Value} {s st st' : State} {p : Stage} {h : List Event} {f f' : Frame}
  {a v : ValueId} {i : Inst} {n : Nat}

theorem Recent.move {source target : BlockId} (ha : Recent mod h f a) (hext : mod.Extends target source)
    (hf : f'.values = f.values) : Recent mod (.moved source target :: h) f' a := by
  obtain ⟨since, x, earlier, rfl, hpasses, hx⟩ := ha
  exact ⟨_ :: since, x, earlier, rfl, forall_mem_cons.2 ⟨hext, hpasses⟩, by rw [hf]; exact hx⟩

theorem Recent.exec (hn : mod.Numbered) (hi : mod.inst? v = some i) (he : (Machine.exec call mod i f).run st = (.ok f', st'))
    (hne : a ≠ v) (ha : Recent mod h f a) : Recent mod (.executed v ((lookup? f'.values v).getD {}) :: h) f' a := by
  obtain ⟨since, x, earlier, rfl, hpasses, hx⟩ := ha
  refine ⟨_ :: since, x, earlier, rfl, forall_mem_cons.2 ⟨trivial, hpasses⟩, ?_⟩
  have hid := hn.inst hi
  rw [exec_lookup?_ne he (hid ▸ hne) (hid ▸ (Module.inst?_lt hi).1)]
  exact hx

theorem recent_exec (hsize : f'.values.size = mod.insts.size) (hi : mod.inst? v = some i) :
    Recent mod (.executed v ((lookup? f'.values v).getD {}) :: h) f' v := by
  obtain ⟨hlo, hhi⟩ := Module.inst?_lt hi
  obtain ⟨x, hx⟩ := exists_lookup? hlo (hsize ▸ hhi)
  exact ⟨[], _, h, rfl, by simp, by rw [hx]; rfl⟩

/-- **An instruction keeps what is known**, and its own value is recent then. -/
theorem Reaching.exec {vs : List ValueId} (hn : mod.Numbered) (hr : Reaching mod ⟨b, v :: vs, f, st, n⟩ h)
    (hi : mod.inst? v = some i) (he : (Machine.exec call mod i f).run st.counted = (.ok f', st')) :
    Reaching mod ⟨b, vs, f', st', n⟩ (.executed v ((lookup? f'.values v).getD {}) :: h) := by
  have hsize : f'.values.size = mod.insts.size := (exec_size he).trans hr.size
  have hkeep {a : ValueId} (ha : Recent mod h f a) : Recent mod (.executed v ((lookup? f'.values v).getD {}) :: h) f' a := by
    by_cases heq : a = v
    · rw [heq]
      exact recent_exec hsize hi
    · exact ha.exec hn hi he heq
  obtain ⟨k, before, hk, hsplit, hown⟩ := hr.own
  refine ⟨hsize, ⟨k, before ++ [v], hk, by simpa using hsplit, fun a ha => ?_⟩, fun ha => hkeep (hr.carried ha)⟩
  rcases mem_append.1 ha with ha | ha
  · exact hkeep (hown a ha)
  · rw [mem_singleton.1 ha]
    exact recent_exec hsize hi

theorem Reaching.enter (hk : mod.block? b = some k) (hsize : f.values.size = mod.insts.size)
    (hcarried : ∀ {a}, mod.CarriedInto b a → Recent mod h f a) : Reaching mod ⟨b, k.insts.toList, f, st, n⟩ h :=
  ⟨hsize, ⟨k, [], hk, rfl, by simp⟩, hcarried⟩

/-- At the end of a block the values that it carries are recent. -/
theorem Reaching.carries (hr : Reaching mod ⟨b, [], f, st, n⟩ h) (ha : mod.Carries b a) : Recent mod h f a := by
  obtain ⟨k, before, hk, hsplit, hown⟩ := hr.own
  cases ha with
  | own hk' hmem =>
    obtain rfl := Option.mem_unique hk hk'
    refine hown a ?_
    rw [append_nil] at hsplit
    rw [← hsplit]
    simpa using hmem
  | passed hext hp => exact hr.carried ⟨_, hext, hp⟩

theorem mem_edges_of_mem_ways {t : Terminator} (h : b ∈ t.ways) : b ∈ t.edges := by
  cases t with
  | switch v d cs => simpa [Terminator.ways, Terminator.edges, or_comm] using h
  | mayUnwind t u =>
    rw [mem_singleton.1 h]
    exact mem_cons_self
  | throw v u => cases h
  | _ => exact h

theorem execTerm_edge {b' : BlockId} (ht : (execTerm mod k f).run st = (.ok (.jump b' f'), st')) :
    b' ∈ k.term.edges ∧ f'.values = f.values := by
  rcases execTerm_jump ht with ⟨hway, rfl, -⟩ | ⟨v, _, _, hterm, -, -, -, rfl⟩
  · exact ⟨mem_edges_of_mem_ways hway, rfl⟩
  · rw [hterm]
    exact ⟨mem_singleton.2 rfl, rfl⟩

end Recent

/-- The runs of a module start at its entry only, and continuation blocks are no landingpads. -/
structure Plain (mod : Module) : Prop where
  entry : ∀ {k}, mod.block? mod.entry = some k → k.preds = []
  pad : ∀ {b k}, mod.block? b = some k → k.kind = .continue → k.pad = none

section Frozen

variable {b : Builder} {mod : Module} {call : Caller} {args : List Value} {s : State} {p : Stage} {h : List Event}

/-- **What is known at every stage that an activation of a frozen module visits.** -/
theorem Visits.reaching (hb : b.Made) (hfreeze : b.freeze.1 = .ok mod) (hplain : Plain mod) (hv : Visits call mod args s p h) :
    Reaching mod p h := by
  obtain ⟨hnumbered, hchecked, hpreds⟩ := hb.frozen hfreeze
  induction hv with
  | start _ hframe hk =>
    refine .enter hk.1 ?_ ?_
    · unfold newFrame? at hframe
      split at hframe
      · cases hframe
        exact Array.size_replicate
      · cases hframe
    · rintro a ⟨q, ⟨k', hk', -, hq⟩, -⟩
      rw [hplain.entry hk'] at hq
      cases hq
  | exec _ hi he ih => exact ih.exec hnumbered hi he
  | @fault b v vs f st n h i k k' obj st' _ hi he hk hu hk' ih =>
    -- a fault leads to a landingpad, and no value is carried into one
    refine .enter hk'.1 ih.size ?_
    rintro a ⟨q, ⟨k'', hk'', hkind, -⟩, -⟩
    obtain ⟨x, u, hterm, -, hne⟩ := unwindsAt_iff.1 hu
    have hpad := (hchecked hk).unwind (by rw [hterm]; exact hne)
    unfold Module.isPad at hpad
    rw [hk'', Option.any_some, hplain.pad hk'' hkind] at hpad
    cases hpad
  | @move b f st n h k b' k' f' st' _ hk ht hk' ih =>
    obtain ⟨hedge, hvalues⟩ := execTerm_edge ht
    refine .enter hk'.1 (by rw [hvalues]; exact ih.size) ?_
    rintro a ⟨q, hext, hcarries⟩
    obtain ⟨k'', hk'', -, hq⟩ := id hext
    have hmem := hpreds hk hedge hk''
    rw [hq, mem_singleton] at hmem
    subst hmem
    exact (ih.carries hcarries).move hext hvalues

/-- **In the runs of a frozen module every value that is used is recent**, by instructions and by terminators. So no value of an
instruction that faulted is used. -/
theorem freeze_defined (hb : b.Made) (hfreeze : b.freeze.1 = .ok mod) (hplain : Plain mod) (hv : Visits call mod args s p h) :
    (activate call mod args).run s = p.outcome call mod ∧
    (∀ v vs i, p.rest = v :: vs → mod.inst? v = some i → ∀ a ∈ i.args, Recent mod h p.frame a) ∧
    ∀ k, p.rest = [] → mod.block? p.block = some k → ∀ a ∈ k.term.uses, Recent mod h p.frame a := by
  obtain ⟨-, hchecked, -⟩ := hb.frozen hfreeze
  have hr := hv.reaching hb hfreeze hplain
  obtain ⟨k, before, hk, hsplit, hown⟩ := hr.own
  refine ⟨hv.outcome, fun v vs i hrest hi a ha => ?_, fun k' hrest hk' a ha => ?_⟩
  · obtain ⟨j, hj, hargs⟩ := (hchecked hk).args (hrest ▸ hsplit)
    obtain rfl := Option.mem_unique hi hj
    rcases hargs a ha with hmem | hcarried
    · exact hown a hmem
    · exact hr.carried hcarried
  · obtain rfl := Option.mem_unique hk hk'
    rcases (hchecked hk).uses a ha with hmem | hcarried
    · refine hown a ?_
      rw [hrest, List.append_nil] at hsplit
      rw [← hsplit]
      simpa using hmem
    · exact hr.carried hcarried

end Frozen

/-- The blocks of a module that checks its constant divisor: the check may unwind, and the continuation block returns the constant. -/
def divisorBlocks : Builder :=
  let b := ((Builder.new "divisor").newBlock "entry" 0 .entry).2
  let b := (b.emit 0 { op := .const, ty := .i32, imm := 7 }).2
  let b := (b.emit 0 { op := .checkDivZero, args := [0] }).2
  let b := (b.newBlock "rest" 0 .continue).2
  let b := (b.newBlock "pad" 0 .landingpad).2
  let b := (b.emit 2 { op := .landingpad, ty := .token }).2
  let b := (b.emit 2 { op := .exception, ty := .ref }).2
  ((b.setTerm 0 (.mayUnwind 1 2)).setTerm 1 (.ret 0)).setTerm 2 (.resume 3)

/-- The builder of the module, with its entry and its landingpad. -/
def divisorBuilder : Builder :=
  let m := divisorBlocks.mod.modifyBlock 2 fun k => { k with pad := some { cleanup := true } }
  { divisorBlocks with mod := { m with entry := 0, result := .i32 } }

theorem divisorBuilder_made : divisorBuilder.Made := by
  refine .edit (by decide +kernel) (by decide +kernel) ?_
  unfold divisorBlocks
  extract_lets b0 b1 b2 b3 b4 b5 b6
  have h2 : b2.Made := .emit _ _ (.emit _ _ (.newBlock _ _ _ (.new _)))
  have h4 : b4.Made := .newBlock _ _ _ (.newBlock _ _ _ h2)
  have h6 : b6.Made := .emit _ _ (.emit _ _ h4)
  exact .setTerm _ _ (.setTerm _ _ (.setTerm _ _ h6))

/-- The module that it is frozen to. -/
def divisorModule : Module :=
  { divisorBuilder.mod with
    blocks := #[
      { id := 0, label := "entry", start := 0, stop := 0, kind := .entry, insts := #[0, 1], term := .mayUnwind 1 2, succs := [1, 2] },
      { id := 1, label := "rest", start := 0, stop := 0, kind := .continue, term := .ret 0, preds := [0] },
      { id := 2, label := "pad", start := 0, stop := 0, kind := .landingpad, insts := #[2, 3], term := .resume 3, preds := [0]
        pad := some { cleanup := true } }]
    frozen := true }

theorem divisorModule_plain : Plain divisorModule where
  entry {k} hk := by
    cases hk
    rfl
  pad {b k} hk hkind := by
    have hall : ∀ k ∈ divisorModule.blocks.toList, k.kind = .continue → k.pad = none := by decide +kernel
    exact hall k (Module.block?_mem hk) hkind

theorem divisor_defined : ∃ p h, divisorBuilder.Made ∧ divisorBuilder.freeze.1 = .ok divisorModule ∧ Plain divisorModule ∧
    Visits (invokeAt 8) divisorModule [] { env := .new {} } p h ∧ p.block = 1 ∧ p.rest = [] ∧
    Recent divisorModule h p.frame 0 := by
  have hfreeze : divisorBuilder.freeze.1 = .ok divisorModule := by decide +kernel
  have hstart : Visits (invokeAt 8) divisorModule [] { env := .new {} } _ [] := .start rfl rfl ⟨rfl, rfl⟩
  have hv := Visits.move (.exec (.exec hstart rfl rfl) rfl rfl) rfl rfl ⟨rfl, rfl⟩
  exact ⟨_, _, divisorBuilder_made, hfreeze, divisorModule_plain, hv, rfl, rfl,
    (freeze_defined divisorBuilder_made hfreeze divisorModule_plain hv).2.2 _ rfl rfl 0 (List.mem_singleton.2 rfl)⟩

end Bytelift.Machine
