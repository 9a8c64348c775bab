import Bytelift.Proofs.Machine.Runs

/-!
# What available instructions established

The value of an instruction is set once on the way through a block and the blocks that continue it. What
an instruction establishes about its value or about its operands therefore holds wherever the instruction
is available: a constant has its value, what is allocated is not null, and the operand of a check passed the
check.

Results:
* `Stands.executes`: what the instructions before a place established holds there;
* `Path.stands`: so does what the blocks established that the block continues, in every run.
-/

namespace Bytelift

open List

namespace Ir.Module

variable {m : Module} {b : BlockId} {g v : ValueId} {k : Block}

/-- Blocks are continued by later ones. -/
theorem Sound.continued_lt {p u : BlockId} {kp : Block} (hs : m.Sound) (hp : m.block? p = some kp) (ht : kp.term = .mayUnwind b u)
    (hb : m.block? b = some k) (hkind : k.kind = .continue) : p < b := by
  have hterm := (hs.block hp).term
  rw [ht] at hterm
  rcases hterm.1 with ⟨k', hk', hne⟩ | ⟨hlt, -⟩
  · obtain rfl := Option.mem_unique hk' hb
    exact absurd hkind hne
  · exact hlt

theorem Avail.block_le (hs : m.Sound) (h : m.Avail b v) : ∃ i, m.inst? v = some i ∧ i.id = v ∧ (i.block : Int) ≤ b := by
  induction h with
  | own hk hv =>
    obtain ⟨before, after, heq⟩ := append_of_mem (Array.mem_toList_iff.2 hv)
    obtain ⟨i, hi, hsound⟩ := (hs.block hk).inst heq
    exact ⟨i, hi, hsound.id, Int.le_of_eq hsound.block⟩
  | above hp ht hb hkind _ ih =>
    obtain ⟨i, hi, hid, hle⟩ := ih
    exact ⟨i, hi, hid, Int.le_trans hle (Int.le_of_lt (hs.continued_lt hp ht hb hkind))⟩

theorem AvailAbove.block_lt (hs : m.Sound) (h : m.AvailAbove b v) : ∃ i, m.inst? v = some i ∧ i.id = v ∧ (i.block : Int) < b := by
  obtain ⟨p, kp, kb, u, hp, ht, hb, hkind, ha⟩ := h
  obtain ⟨i, hi, hid, hle⟩ := ha.block_le hs
  exact ⟨i, hi, hid, Int.lt_of_le_of_lt hle (hs.continued_lt hp ht hb hkind)⟩

theorem Avail.args (hs : m.Sound) (h : m.Avail b v) {i : Inst} (hi : m.inst? v = some i) {a : ValueId} (ha : a ∈ i.args) :
    m.Avail b a := by
  induction h with
  | own hk hv =>
    obtain ⟨before, after, heq⟩ := append_of_mem (Array.mem_toList_iff.2 hv)
    obtain ⟨j, hj, hsound⟩ := (hs.block hk).inst heq
    obtain rfl := Option.mem_unique hi hj
    rcases hsound.args a ha with hmem | habove
    · refine .own hk (Array.mem_toList_iff.1 ?_)
      rw [heq]
      exact mem_append_left _ hmem
    · exact habove.avail
  | above hp ht hb hkind _ ih => exact .above hp ht hb hkind (ih hi)

theorem AvailAbove.args (hs : m.Sound) (h : m.AvailAbove b v) {i : Inst} (hi : m.inst? v = some i) {a : ValueId}
    (ha : a ∈ i.args) : m.AvailAbove b a := by
  obtain ⟨p, kp, kb, u, hp, ht, hb, hkind, hv⟩ := h
  exact ⟨p, kp, kb, u, hp, ht, hb, hkind, hv.args hs hi ha⟩

/-- A way out of a block leads to a block that may be jumped to, or the block is continued there. -/
theorem SoundTerm.way {t : Terminator} {x : BlockId} (h : m.SoundTerm b k t) (hx : x ∈ t.ways) (hne : x ≠ noBlock) :
    m.Target x ∨ ∃ u, t = .mayUnwind x u ∧ m.Continues b x := by
  cases t with
  | goto y | fallthrough y =>
    obtain rfl := mem_singleton.1 hx
    exact .inl h
  | mayUnwind y u =>
    obtain rfl := mem_singleton.1 hx
    exact h.1.imp_right fun hc => ⟨u, rfl, hc⟩
  | condBr v y z =>
    rcases mem_cons.1 hx with rfl | hx
    · exact .inl h.1
    · obtain rfl := mem_singleton.1 hx
      exact .inl h.2.1
  | switch v d cs =>
    rcases mem_cons.1 hx with rfl | hx
    · exact .inl (h.1 hne)
    · obtain ⟨c, hc, rfl⟩ := mem_map.1 hx
      exact .inl (h.2.1 c hc)
  | _ => cases hx

end Ir.Module

namespace Machine

open Ir

/-- What an instruction established, as far as the values of a frame tell. -/
def Told (i : Inst) (values : Array Value) : Prop :=
  match i.op with
  | .const => lookup? values i.id = some { i := i.imm, f := i.fimm }
  | .checkDivZero => ∃ a x, i.args[0]? = some a ∧ lookup? values a = some x ∧ x.i ≠ 0
  | .constString | .allocObject | .allocArray => ∃ r, lookup? values i.id = some (.ofRef r)
  | _ => True

/-- A run stands behind the given instructions of a block: what is available there holds. -/
structure Stands (mod : Module) (b : BlockId) (before : List ValueId) (f : Frame) : Prop where
  size : f.values.size = mod.insts.size
  told : ∀ {g j}, g ∈ before ∨ mod.AvailAbove b g → mod.inst? g = some j → Told j f.values

section Executing

variable {call : Caller} {mod : Module} {i j : Inst} {f f' : Frame} {s s' : State}

theorem Told.congr {values values' : Array Value} (h : Told i values) (hid : lookup? values' i.id = lookup? values i.id)
    (hargs : ∀ a ∈ i.args, lookup? values' a = lookup? values a) : Told i values' := by
  unfold Told at h ⊢
  split
  · rename_i hop
    rw [hop] at h
    exact hid.trans h
  · rename_i hop
    rw [hop] at h
    obtain ⟨a, x, ha, hx, hne⟩ := h
    exact ⟨a, x, ha, (hargs a (mem_of_getElem? ha)).trans hx, hne⟩
  all_goals
    first
    | trivial
    | rename_i hop
      rw [hop] at h
      obtain ⟨r, hr⟩ := h
      exact ⟨r, hid.trans hr⟩

theorem exec_told (h : (exec call mod i f).run s = (.ok f', s')) (hpos : (0 : Int) ≤ i.id)
    (hlt : i.id < (f.values.size : Int)) : Told i f'.values := by
  have refers (hx : Yields (exec call mod i f) fun f' => ∃ r, f' = f.define i (.ofRef r)) :
      ∃ r, lookup? f'.values i.id = some (.ofRef r) := by
    obtain ⟨r, rfl⟩ := hx _ _ _ h
    exact ⟨r, Frame.lookup?_define_self hpos hlt⟩
  unfold Told
  split
  · rename_i hop
    rw [exec_const call mod f hop] at h
    cases h
    exact Frame.lookup?_define_self hpos hlt
  · rename_i hop
    simp only [exec, hop] at h
    obtain ⟨x, s1, hx, h⟩ := run_bind_ok.1 h
    obtain ⟨⟨a, ha, hval⟩, rfl⟩ := Frame.run_arg_ok.1 hx
    obtain ⟨u, s2, hcheck, h⟩ := run_bind_ok.1 h
    cases h
    refine ⟨a, x, ha, hval, fun hz => ?_⟩
    unfold checkDivZero at hcheck
    rw [if_pos hz] at hcheck
    cases hcheck
  · exact refers (by simp only [exec, ‹i.op = _›]; exact .bind fun _ => .pure ⟨_, rfl⟩)
  · exact refers (by simp only [exec, ‹i.op = _›]; exact .bind fun _ => .bind fun _ => .pure ⟨_, rfl⟩)
  · exact refers (by simp only [exec, ‹i.op = _›]; exact .bind fun _ => .bind fun _ => .bind fun _ => .pure ⟨_, rfl⟩)
  · trivial

end Executing

section Standing

variable {call : Caller} {mod : Module} {b : BlockId} {before after : List ValueId} {g : ValueId} {c c' : Config}

theorem stands_start (hk : mod.block? mod.entry = some k) (hkind : k.kind ≠ .continue) (args : List Value) (s : State) :
    Stands mod (Config.start mod args s).block [] (Config.start mod args s).frame := by
  refine ⟨Array.size_replicate, fun {g j} hg _ => ?_⟩
  obtain ⟨p, kp, kb, u, -, -, hb, hcont, -⟩ := hg.resolve_left not_mem_nil
  obtain rfl := Option.mem_unique hk hb
  exact absurd hcont hkind

variable (hs : mod.Sound)

include hs

/-- The operands of what is available before an instruction are available there. -/
theorem available_args {j : Inst}
    (hk : mod.block? b = some k) (hids : k.insts.toList = before ++ after) (hg : g ∈ before ∨ mod.AvailAbove b g)
    (hj : mod.inst? g = some j) : j.id = g ∧ ∀ a ∈ j.args, a ∈ before ∨ mod.AvailAbove b a := by
  rcases hg with hmem | habove
  · obtain ⟨front, back, rfl⟩ := append_of_mem hmem
    obtain ⟨i, hi, hsound⟩ := (hs.block hk).inst (hids.trans (append_assoc front (g :: back) after))
    obtain rfl := Option.mem_unique hj hi
    exact ⟨hsound.id, fun a ha => (hsound.args a ha).imp_left (mem_append_left _)⟩
  · obtain ⟨i, hi, hid, -⟩ := habove.block_lt hs
    obtain rfl := Option.mem_unique hj hi
    exact ⟨hid, fun a ha => .inr (habove.args hs hj ha)⟩

variable (hn : ∀ {b k}, mod.block? b = some k → k.insts.toList.Nodup)

include hn

theorem ne_of_available {v : ValueId} (hk : mod.block? b = some k)
    (hids : k.insts.toList = before ++ v :: after) (hg : g ∈ before ∨ mod.AvailAbove b g) : g ≠ v := by
  rintro rfl
  rcases hg with hmem | habove
  · have hnodup := hn hk
    rw [hids, nodup_append] at hnodup
    exact hnodup.2.2 g hmem g mem_cons_self rfl
  · obtain ⟨i, hi, hsound⟩ := (hs.block hk).inst hids
    obtain ⟨j, hj, -, hlt⟩ := habove.block_lt hs
    obtain rfl := Option.mem_unique hi hj
    exact absurd hsound.block (Int.ne_of_lt hlt)

theorem Stands.exec {v : ValueId} {i : Inst} {f f' : Frame}
    {s s' : State} (h : Stands mod b before f) (hk : mod.block? b = some k) (hids : k.insts.toList = before ++ v :: after)
    (hi : mod.inst? v = some i) (he : (exec call mod i f).run s = (.ok f', s')) : Stands mod b (before ++ [v]) f' := by
  obtain ⟨i', hi', hsound⟩ := (hs.block hk).inst hids
  obtain rfl := Option.mem_unique hi hi'
  obtain rfl := hsound.id
  obtain ⟨hpos, hlt⟩ := lookup?_bounds hi
  refine ⟨(exec_size he).trans h.size, fun {g j} hg hj => ?_⟩
  -- the values that an available instruction speaks of are other ones than the value that is set
  have kept (hg : g ∈ before ∨ mod.AvailAbove b g) : Told j f'.values := by
    obtain ⟨hid, hargs⟩ := available_args hs hk hids hg hj
    refine (h.told hg hj).congr (exec_lookup?_ne he ?_ hpos) fun a ha => exec_lookup?_ne he ?_ hpos
    · rw [hid]
      exact ne_of_available hs hn hk hids hg
    · exact ne_of_available hs hn hk hids (hargs a ha)
  rcases hg with hmem | habove
  · rcases mem_append.1 hmem with hmem | hmem
    · exact kept (.inl hmem)
    · obtain rfl := mem_singleton.1 hmem
      obtain rfl := Option.mem_unique hi hj
      exact exec_told he hpos (by rw [h.size]; exact hlt)
  · exact kept (.inr habove)

/-- **What the executed instructions of a block established holds behind them.** -/
theorem Stands.executes {ids : List ValueId} {f f' : Frame} {s s' : State}
    (h : Stands mod b before f) (hk : mod.block? b = some k) (hids : k.insts.toList = before ++ (ids ++ after))
    (hx : Executes call mod ids f s f' s') : Stands mod b (before ++ ids) f' := by
  induction hx generalizing before with
  | done => rwa [append_nil]
  | @step v vs i f s f1 s1 f' s' hi he hx ih =>
    have hnext := ih (h.exec hs hn hk hids hi he) (by rw [hids]; simp)
    rwa [append_assoc] at hnext

omit hn in
/-- A block that continues another one is entered from there only. -/
theorem Step.continued (h : Step call mod c c') (hg : mod.AvailAbove c'.block g) :
    mod.Avail c.block g ∧ ∃ k, mod.block? c.block = some k ∧ ∃ s,
      Executes call mod k.insts.toList c.frame (c.state.noted k.label) c'.frame s := by
  obtain ⟨p, kp, kb, u, hp, ht, hb, hkind, hv⟩ := hg
  have hcont : ¬ mod.Target c'.block := by
    rintro ⟨k, hk, hne⟩
    obtain rfl := Option.mem_unique hk hb
    exact hne hkind
  have hpad : ¬ mod.UnwindDest c'.block := by
    rintro ⟨k, hk, hpad⟩
    obtain rfl := Option.mem_unique hk hb
    rw [hkind] at hpad
    cases hpad
  obtain ⟨k, hk, f, s, ⟨hx, hterm⟩ | ⟨before, v, after, i, obj, -, -, -, -, hun, hblock, -⟩⟩ := h.cases
  · have hsound := (hs.block hk).term
    rcases execTerm_jump hterm with ⟨hway, hf, -⟩ | ⟨v, obj, r, hthrow, hne, -, -, -⟩
    · obtain ⟨u', hmay, hc⟩ := (hsound.way hway (by rintro heq; rw [heq] at hb; cases hb)).resolve_left hcont
      refine ⟨?_, k, hk, s, by rwa [hf]⟩
      rwa [hs.joined hk hp hmay ht hc]
    · rw [hthrow] at hsound
      exact absurd (hsound.2 hne) hpad
  · obtain ⟨x, u', hmay, -, hne⟩ := unwindsAt_iff.1 hun
    have hsound := (hs.block hk).term
    rw [hmay] at hsound hblock
    rw [hblock] at hpad
    exact absurd (hsound.2.1 hne) hpad

theorem Stands.step (h : Stands mod c.block [] c.frame) (hstep : Step call mod c c') : Stands mod c'.block [] c'.frame := by
  refine ⟨hstep.size.trans h.size, fun {g j} hg hj => ?_⟩
  have habove := hg.resolve_left not_mem_nil
  obtain ⟨hv, k, hk, s, hx⟩ := hstep.continued hs habove
  have hids : k.insts.toList = [] ++ (k.insts.toList ++ []) := by simp
  exact (h.executes hs hn hk hids hx).told (hv.own_or_above hk) hj

/-- **In every run, what is available at a block holds.** -/
theorem Path.stands {P : BlockId → Prop} (h : Path call mod P c c') (hc : Stands mod c.block [] c.frame) :
    Stands mod c'.block [] c'.frame := by
  induction h with
  | done => exact hc
  | step _ hstep _ ih => exact ih (hc.step hs hn hstep)

end Standing

end Machine

end Bytelift
