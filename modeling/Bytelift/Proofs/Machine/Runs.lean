import Bytelift.Proofs.Ir.Soundness
import Bytelift.Proofs.Machine.Execution

/-!
# Runs of an activation

A run of an activation goes from block to block. A step executes one block and comes to another; it
leaves the budget of blocks out of account, so that the steps of the machine are steps here, and a step
here is one of the machine as long as the budget lasts.

Results:
* `step_iff`, `path_of_after?`: runs can be computed;
* `Step.cases`: a step completes its block and follows the terminator, or it follows a fault to a
  landingpad;
* `Path.read?`: a slot keeps its value along blocks that do not store into it;
-/

namespace Bytelift

open List

namespace Ir

/-- Where a block goes if it does not fault; a switch starts with its default. -/
def Terminator.ways : Terminator → List BlockId
  | .goto t | .fallthrough t | .mayUnwind t _ => [t]
  | .condBr _ t e => [t, e]
  | .switch _ d cs => d :: cs.map (·.target)
  | _ => []

/-- A block stores into a slot. -/
def Module.Stores (m : Module) (b : BlockId) (slot : Slot) : Prop :=
  ∃ k v i, m.block? b = some k ∧ v ∈ k.insts ∧ m.inst? v = some i ∧ i.op = .storeSlot ∧ i.slot = slot

instance (m : Module) (b : BlockId) (slot : Slot) : Decidable (m.Stores b slot) :=
  decidable_of_iff ((m.block? b).any fun k => k.insts.any fun v => (m.inst? v).any fun i =>
    i.op = .storeSlot ∧ i.slot = slot) <| by
  simp only [Option.any_eq_true, Array.any_eq_true', decide_eq_true_eq, Module.Stores]
  constructor
  · rintro ⟨k, hk, v, hv, i, hi, hop, hslot⟩
    exact ⟨k, v, i, hk, hv, hi, hop, hslot⟩
  · rintro ⟨k, v, i, hk, hv, hi, hop, hslot⟩
    exact ⟨k, hk, v, hv, i, hi, hop, hslot⟩

end Ir

namespace Machine

open Ir

/-- Where a run of an activation stands: before a block. -/
structure Config where
  block : BlockId
  frame : Frame
  state : State

/-- The block is executed, and control goes to another one. -/
def Step (call : Caller) (mod : Module) (c c' : Config) : Prop :=
  ∃ k, mod.block? c.block = some k ∧
    (execFrom call mod k k.insts.toList c.frame).run (c.state.noted k.label) = (.ok (.jump c'.block c'.frame), c'.state)

/-- A run comes from one configuration to another. All the blocks that it stands before have a property. -/
inductive Path (call : Caller) (mod : Module) (P : BlockId → Prop) : Config → Config → Prop
  | done {c} (hc : P c.block) : Path call mod P c c
  | step {c c₁ c'} (hc : P c.block) (hs : Step call mod c c₁) (h : Path call mod P c₁ c') : Path call mod P c c'

/-- The block returns a value. -/
def Answers (call : Caller) (mod : Module) (c : Config) (v : Value) : Prop :=
  ∃ k s', mod.block? c.block = some k ∧
    (execFrom call mod k k.insts.toList c.frame).run (c.state.noted k.label) = (.ok (.done v), s')

namespace Config

/-- Where an activation starts. -/
def start (mod : Module) (args : List Value) (s : State) : Config :=
  ⟨mod.entry, { args := args, locals := #[], stack := #[], temps := #[], values := Array.replicate mod.insts.size {} }, s⟩

/-- The configuration after a step, if there is one. -/
def next? (call : Caller) (mod : Module) (c : Config) : Option Config := do
  let k ← mod.block? c.block
  match (execFrom call mod k k.insts.toList c.frame).run (c.state.noted k.label) with
  | (.ok (.jump b f), s) => some ⟨b, f, s⟩
  | _ => none

/-- The configuration after a number of steps, if all the blocks have a property. -/
def after? (call : Caller) (mod : Module) (P : BlockId → Prop) [DecidablePred P] : Nat → Config → Option Config
  | 0, c => if P c.block then some c else none
  | n + 1, c => if P c.block then (c.next? call mod).bind (after? call mod P n) else none

/-- The value that the block returns, if it does. -/
def answer? (call : Caller) (mod : Module) (c : Config) : Option Value := do
  let k ← mod.block? c.block
  match (execFrom call mod k k.insts.toList c.frame).run (c.state.noted k.label) with
  | (.ok (.done v), _) => some v
  | _ => none

end Config

section Terminators

variable {mod : Module} {k : Block} {f f' : Frame} {s s' : State} {b : BlockId}

theorem run_execTerm_goto (ht : k.term = .goto b) : (execTerm mod k f).run s = (.ok (.jump b f), s) := by
  unfold execTerm
  rw [ht]
  rfl

/-- A switch goes to the first case with the key. -/
theorem execTerm_switch {v : ValueId} {d : BlockId} {cs : List SwitchCase} (ht : k.term = .switch v d cs)
    (h : (execTerm mod k f).run s = (.ok (.jump b f'), s')) : f' = f ∧ s' = s ∧ ∃ key, lookup? f.values v = some key ∧
      match cs.find? (·.key = key.int32.toInt) with
      | some c => b = c.target
      | none => d ≠ noBlock ∧ b = d := by
  unfold execTerm at h
  rw [ht] at h
  obtain ⟨key, s1, hv, h⟩ := run_bind_ok.1 h
  obtain ⟨hkey, rfl⟩ := Frame.run_value_ok.1 hv
  split at h
  · rename_i c hc
    cases h
    exact ⟨rfl, rfl, key, hkey, by rw [hc]⟩
  rename_i hc
  split at h
  · cases h
  · rename_i hd
    cases h
    exact ⟨rfl, rfl, key, hkey, by rw [hc]; exact ⟨hd, rfl⟩⟩

/-- A terminator goes one of its ways, or it throws to the landingpad. -/
theorem execTerm_jump (h : (execTerm mod k f).run s = (.ok (.jump b f'), s')) :
    (b ∈ k.term.ways ∧ f' = f ∧ s' = s) ∨ ∃ v obj r, k.term = .throw v b ∧ b ≠ noBlock ∧ lookup? f.values v = some obj ∧
      (thrownObject obj).run s = (.ok r, s') ∧ f' = { f with inflight := some r } := by
  cases ht : k.term with
  | switch v d cs =>
    obtain ⟨rfl, rfl, key, -, hb⟩ := execTerm_switch ht h
    refine .inl ⟨?_, rfl, rfl⟩
    split at hb
    · rename_i c hc
      exact mem_cons_of_mem _ (mem_map.2 ⟨c, mem_of_find?_eq_some hc, hb.symm⟩)
    · exact hb.2 ▸ mem_cons_self
  | goto t | fallthrough t | mayUnwind t u =>
    unfold execTerm at h
    rw [ht] at h
    cases h
    exact .inl ⟨mem_singleton_self _, rfl, rfl⟩
  | condBr v t e =>
    unfold execTerm at h
    rw [ht] at h
    obtain ⟨c, s1, hv, h⟩ := run_bind_ok.1 h
    obtain ⟨-, rfl⟩ := Frame.run_value_ok.1 hv
    cases h
    refine .inl ⟨?_, rfl, rfl⟩
    split
    · exact mem_cons_self
    · exact mem_cons_of_mem _ (mem_singleton_self _)
  | throw v u =>
    unfold execTerm at h
    rw [ht] at h
    obtain ⟨obj, s1, hv, h⟩ := run_bind_ok.1 h
    obtain ⟨hobj, rfl⟩ := Frame.run_value_ok.1 hv
    obtain ⟨r, s2, hr, h⟩ := run_bind_ok.1 h
    split at h
    · rename_i hu
      cases h
      exact .inr ⟨v, obj, r, rfl, hu, hobj, hr, rfl⟩
    · cases h
  | ret v =>
    unfold execTerm at h
    rw [ht] at h
    dsimp only at h
    split at h
    · cases h
    · obtain ⟨r, s1, -, h⟩ := run_bind_ok.1 h
      cases h
  | resume v =>
    unfold execTerm at h
    rw [ht] at h
    obtain ⟨obj, s1, -, h⟩ := run_bind_ok.1 h
    cases h
  | none | unreachable | unknown =>
    unfold execTerm at h
    rw [ht] at h
    cases h

end Terminators

section Runs

variable {call : Caller} {mod : Module} {c c' : Config} {slot : Slot} {f f' : Frame} {s s' : State} {P : BlockId → Prop}
  {k : Block}

theorem run_execBlock (call : Caller) (mod : Module) (b : BlockId) (f : Frame) (s : State) :
    (execBlock call mod b f).run s = match mod.block? b with
      | none => (.error .stuck, s)
      | some k =>
        if (s.meter.enter k.label).2 then (execFrom call mod k k.insts.toList f).run (s.noted k.label)
        else (.error .outOfBudget, s.noted k.label) := by
  unfold execBlock
  rw [run_bind, run_need]
  cases mod.block? b with
  | none => rfl
  | some k =>
    have henter : (enterBlock k).run s =
        if (s.meter.enter k.label).2 then (.ok (), s.noted k.label) else (.error .outOfBudget, s.noted k.label) := by
      change (if (s.meter.enter k.label).2 then pure () else throw .outOfBudget : RunM Unit).run (s.noted k.label) = _
      split <;> rfl
    dsimp only
    rw [run_bind, henter]
    cases (s.meter.enter k.label).2 <;> rfl

theorem step_iff : Step call mod c c' ↔ c.next? call mod = some c' := by
  unfold Step Config.next?
  rw [Option.bind_eq_bind, Option.bind_eq_some_iff]
  refine exists_congr fun k => and_congr_right fun _ => ?_
  obtain ⟨b', f', s'⟩ := c'
  rcases (execFrom call mod k k.insts.toList c.frame).run (c.state.noted k.label) with ⟨_ | ⟨b, f⟩ | v, s⟩
  · exact iff_of_false nofun nofun
  · constructor <;> intro h <;> cases h <;> rfl
  · exact iff_of_false nofun nofun

theorem answers_iff {v : Value} : Answers call mod c v ↔ c.answer? call mod = some v := by
  unfold Answers Config.answer?
  rw [Option.bind_eq_bind, Option.bind_eq_some_iff]
  refine exists_congr fun k => ?_
  rw [exists_and_left]
  refine and_congr_right fun _ => ?_
  rcases (execFrom call mod k k.insts.toList c.frame).run (c.state.noted k.label) with ⟨_ | ⟨b, f⟩ | w, s⟩
  · exact iff_of_false nofun nofun
  · exact iff_of_false nofun nofun
  · constructor
    · rintro ⟨s', h⟩
      cases h
      rfl
    · intro h
      cases h
      exact ⟨_, rfl⟩

theorem path_of_after? [DecidablePred P] {n : Nat} (h : c.after? call mod P n = some c') : Path call mod P c c' := by
  induction n generalizing c with
  | zero =>
    unfold Config.after? at h
    split at h
    · rename_i hc
      cases h
      exact .done hc
    · cases h
  | succ n ih =>
    unfold Config.after? at h
    split at h
    · rename_i hc
      obtain ⟨c1, hc1, h⟩ := Option.bind_eq_some_iff.1 h
      exact .step hc (step_iff.2 hc1) (ih h)
    · cases h

/-- **What a step can be**: the block is completed and its terminator followed, or an instruction faults and
the fault goes to the landingpad. -/
theorem Step.cases (h : Step call mod c c') : ∃ k, mod.block? c.block = some k ∧ ∃ f s,
    (Executes call mod k.insts.toList c.frame (c.state.noted k.label) f s ∧
      (execTerm mod k f).run s = (.ok (.jump c'.block c'.frame), c'.state)) ∨
    ∃ before v after i obj, k.insts.toList = before ++ v :: after ∧
      Executes call mod before c.frame (c.state.noted k.label) f s ∧ mod.inst? v = some i ∧
      (exec call mod i f).run s.counted = (.error (.thrown obj), c'.state) ∧ unwindsAt k v = true ∧
      c'.block = k.term.unwind ∧ c'.frame = { f with inflight := obj } := by
  obtain ⟨k, hk, hr⟩ := h
  refine ⟨k, hk, ?_⟩
  rcases execFrom_cases call mod k k.insts.toList c.frame (c.state.noted k.label) with
    ⟨f, s, hx, heq⟩ | ⟨before, v, after, f, s, hids, hx, hh⟩
  · exact ⟨f, s, .inl ⟨hx, heq.symm.trans hr⟩⟩
  · rw [hr] at hh
    obtain ⟨b', f', s'⟩ := c'
    cases hh with
    | caught hi he hu => exact ⟨f, s, .inr ⟨before, v, after, _, _, hids, hx, hi, he, hu, rfl, rfl⟩⟩

theorem step_of_executes {b : BlockId} (hk : mod.block? c.block = some k)
    (hx : Executes call mod k.insts.toList c.frame (c.state.noted k.label) f s)
    (ht : (execTerm mod k f).run s = (.ok (.jump b f'), s')) : Step call mod c ⟨b, f', s'⟩ :=
  ⟨k, hk, (execFrom_of_executes hx).trans ht⟩

theorem unwindsAt_iff {v : ValueId} : unwindsAt k v = true ↔ ∃ x u, k.term = .mayUnwind x u ∧ v = k.last ∧ u ≠ noBlock := by
  unfold unwindsAt
  cases k.term <;> simp

/-- A step from a block without a landingpad completes the block. -/
theorem Step.completes (h : Step call mod c c') (hk : mod.block? c.block = some k)
    (hu : k.term.unwind = noBlock) : Executes call mod k.insts.toList c.frame (c.state.noted k.label) c'.frame c'.state ∧
      (execTerm mod k c'.frame).run c'.state = (.ok (.jump c'.block c'.frame), c'.state) ∧ c'.block ∈ k.term.ways := by
  obtain ⟨k', hk', f, s, ⟨hx, ht⟩ | ⟨-, v, -, -, -, -, -, -, -, hun, -, -⟩⟩ := h.cases
  · obtain rfl := Option.mem_unique hk hk'
    rcases execTerm_jump ht with ⟨hway, hf, hs⟩ | ⟨v, -, -, hterm, hne, -, -, -⟩
    · rw [← hf, ← hs] at hx ht
      exact ⟨hx, ht, hway⟩
    · rw [hterm] at hu
      exact absurd hu hne
  · obtain rfl := Option.mem_unique hk hk'
    obtain ⟨x, u, hterm, -, hne⟩ := unwindsAt_iff.1 hun
    rw [hterm] at hu
    exact absurd hu hne

theorem Executes.read? {ids : List ValueId} (h : Executes call mod ids f s f' s')
    (hno : ∀ v ∈ ids, ∀ i, mod.inst? v = some i → i.op = .storeSlot → i.slot ≠ slot) : f'.read? slot = f.read? slot := by
  induction h with
  | done => rfl
  | @step v vs i f s f1 s1 f' s' hi he h ih =>
    rw [ih fun w hw => hno w (mem_cons_of_mem _ hw)]
    rcases exec_ok he with ⟨hop, -, a, x, -, -, hw⟩ | ⟨-, rfl | ⟨x, rfl⟩⟩
    · rw [Frame.read?_write? hw, if_neg (hno v mem_cons_self i hi hop).symm]
    · rfl
    · rw [Frame.read?_define]

theorem execTerm_read? {b : BlockId}
    (h : (execTerm mod k f).run s = (.ok (.jump b f'), s')) : f'.read? slot = f.read? slot := by
  rcases execTerm_jump h with ⟨-, rfl, -⟩ | ⟨-, -, -, -, -, -, -, rfl⟩
  · rfl
  · unfold Frame.read? Frame.area
    cases slot.space <;> rfl

/-- **A step keeps the slots that its block does not store into.** -/
theorem Step.read? (h : Step call mod c c') (hno : ¬ mod.Stores c.block slot) :
    c'.frame.read? slot = c.frame.read? slot := by
  obtain ⟨k, hk, f, s, ⟨hx, ht⟩ | ⟨before, v, after, i, obj, hids, hx, -, -, -, -, hf⟩⟩ := h.cases
  · rw [execTerm_read? ht]
    exact hx.read? fun v hv i hi hop hslot => hno ⟨k, v, i, hk, Array.mem_toList_iff.1 hv, hi, hop, hslot⟩
  have hkeep : c'.frame.read? slot = f.read? slot := by
    rw [hf]
    cases slot.space <;> rfl
  rw [hkeep]
  refine hx.read? fun w hw i hi hop hslot => hno ⟨k, w, i, hk, Array.mem_toList_iff.1 ?_, hi, hop, hslot⟩
  rw [hids]
  exact mem_append_left _ hw

/-- **A run keeps the slots that its blocks do not store into.** -/
theorem Path.read? (h : Path call mod P c c') (hP : ∀ b, P b → ¬ mod.Stores b slot) :
    c'.frame.read? slot = c.frame.read? slot := by
  induction h with
  | done => rfl
  | step hc hs _ ih => rw [ih, hs.read? (hP _ hc)]

theorem exec_size {i : Inst} (h : (exec call mod i f).run s = (.ok f', s')) : f'.values.size = f.values.size := by
  rcases exec_ok h with ⟨-, -, a, x, -, -, hw⟩ | ⟨-, rfl | ⟨x, rfl⟩⟩
  · rw [Frame.values_write? hw]
  · rfl
  · rw [Frame.size_define]

theorem Executes.size {ids : List ValueId} (h : Executes call mod ids f s f' s') : f'.values.size = f.values.size := by
  induction h with
  | done => rfl
  | step _ he _ ih => rw [ih, exec_size he]

theorem Step.size (h : Step call mod c c') : c'.frame.values.size = c.frame.values.size := by
  obtain ⟨k, -, f, s, ⟨hx, ht⟩ | ⟨before, v, after, i, obj, -, hx, -, -, -, -, hf⟩⟩ := h.cases
  · rw [← hx.size]
    rcases execTerm_jump ht with ⟨-, hf, -⟩ | ⟨-, -, r, -, -, -, -, hf⟩
    · rw [hf]
    · rw [hf]
  · rw [hf, ← hx.size]

theorem Path.last (h : Path call mod P c c') : P c'.block := by
  induction h with
  | done hc => exact hc
  | step _ _ _ ih => exact ih

theorem Path.size (h : Path call mod P c c') : c'.frame.values.size = c.frame.values.size := by
  induction h with
  | done => rfl
  | step _ hs _ ih => rw [ih, hs.size]

end Runs

end Machine

end Bytelift
