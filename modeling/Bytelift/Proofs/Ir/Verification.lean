import Bytelift.Proofs.Ir.Soundness

/-!
# What the verifier ensures

The verifier goes through the blocks once, in order, and lets a continuation block start with the values at the end of its only
predecessor. Here its answer is turned into facts about each block (`Checked`): what an instruction or a terminator uses is defined
earlier in the block, or it is carried into the block from its predecessor (`Carries`, which follows the predecessors and not the order
of the blocks).

The modules are those of builders that were made by the operations of builders (`Builder.Made`).

Result: `Builder.Made.frozen`: **every block of a module that could be frozen is checked**.
-/

namespace Bytelift.Ir

open List Module

/-! ## Builders -/

/-- The builders that the operations make. What else is set in the module directly leaves its instructions and the numbers of its
blocks alone. -/
inductive Builder.Made : Builder → Prop
  | new (method : Text) : Made (.new method)
  | newBlock {b} (label : Text) (bci : Int) (kind : BlockKind) : Made b → Made (b.newBlock label bci kind).2
  | temp {b} (name : Text) : Made b → Made (b.temp name).2
  | emit {b} (blk : BlockId) (i : Inst) : Made b → Made (b.emit blk i).2
  | setTerm {b} (blk : BlockId) (t : Terminator) : Made b → Made (b.setTerm blk t)
  | freeze {b} : Made b → Made b.freeze.2
  | edit {b} {mod : Module} : mod.insts = b.mod.insts → mod.blocks.map (·.id) = b.mod.blocks.map (·.id) →
      Made b → Made { b with mod := mod }

namespace Module

variable {m m' : Module} {b p : BlockId} {k : Block} {v a : ValueId} {i : Inst}

/-- Blocks and instructions know their numbers. -/
structure Numbered (m : Module) : Prop where
  block : ∀ {b k}, m.block? b = some k → k.id = b
  inst : ∀ {v i}, m.inst? v = some i → i.id = v

theorem Numbered.linked (h : m.Numbered) (hl : m.Linked m') : m'.Numbered where
  block hk := by
    obtain ⟨k, hk0, _, _, rfl⟩ := hl.some_of_block hk
    have hid := h.block hk0
    exact hid
  inst hi := h.inst ((hl.inst? _).symm.trans hi)

theorem Numbered.modifyBlock (h : m.Numbered) (b : BlockId) {f : Block → Block} (hf : ∀ k, (f k).id = k.id) :
    (m.modifyBlock b f).Numbered where
  block hk := by
    rw [block?_modifyBlock] at hk
    split at hk
    · obtain ⟨k, hk0, rfl⟩ := Option.map_eq_some_iff.1 hk
      exact (hf k).trans (h.block hk0)
    · exact h.block hk
  inst hi := h.inst ((inst?_modifyBlock ..).symm.trans hi)

theorem Numbered.edit (h : m.Numbered) (hinsts : m'.insts = m.insts) (hids : m'.blocks.map (·.id) = m.blocks.map (·.id)) :
    m'.Numbered where
  block {b k} hk := by
    have hid (m : Module) : lookup? (m.blocks.map (·.id)) b = (m.block? b).map (·.id) := by
      unfold block? lookup?
      split <;> simp
    obtain ⟨k0, hk0, heq⟩ := Option.map_eq_some_iff.1 ((hid m).symm.trans ((congrArg (lookup? · b) hids).symm.trans
      ((hid m').trans (by rw [hk]; rfl : _ = some k.id))))
    exact heq.symm.trans (h.block hk0)
  inst hi := h.inst (by unfold inst? at hi ⊢; rwa [← hinsts])

end Module

namespace Builder

variable {b : Builder} {m m' : Module} {bs : List Block}

theorem freeze_ok (h : b.freeze.1 = .ok m) : ∃ m', connect b.mod = (m', none) ∧ m'.verify = .ok () ∧ m = { m' with frozen := true } := by
  unfold freeze at h
  split at h
  · cases h
  split at h
  · cases h
  rename_i m' hconnect
  split at h
  · cases h
  · rename_i hverify
    cases h
    exact ⟨m', hconnect, hverify, rfl⟩

theorem Made.numbered (h : b.Made) : b.mod.Numbered := by
  induction h with
  | new method =>
    constructor
    · intro b k hk
      simp [Builder.new, block?, lookup?] at hk
    · intro v i hi
      simp [Builder.new, inst?, lookup?] at hi
  | newBlock label bci kind _ ih =>
    refine ⟨fun hk => ?_, ih.inst⟩
    rw [block?_newBlock] at hk
    split at hk
    · rename_i heq
      cases hk
      exact heq.symm
    · exact ih.block hk
  | temp name _ ih =>
    obtain ⟨n, -, -, hblocks, -⟩ := temp_spec _ name
    refine ⟨fun hk => ih.block (?_ : _ = some _), fun hi => ih.inst (?_ : _ = some _)⟩
    · unfold block? at hk ⊢
      rwa [hblocks] at hk
    · unfold Builder.temp at hi
      split at hi
      · exact hi
      · exact hi
  | emit blk i _ ih =>
    constructor
    · intro c k hk
      rw [block?_emit] at hk
      split at hk
      · obtain ⟨k0, hk0, rfl⟩ := Option.map_eq_some_iff.1 hk
        have hid := ih.block hk0
        exact hid
      · exact ih.block hk
    · intro v j hj
      rw [inst?_emit] at hj
      split at hj
      · rename_i heq
        cases hj
        exact heq.symm
      · exact ih.inst hj
  | setTerm blk t _ ih => exact ih.modifyBlock blk fun _ => rfl
  | @freeze b _ ih =>
    have hc := ih.linked (connect_linked b.mod)
    unfold Builder.freeze
    split
    · exact ih
    rcases hconnect : connect b.mod with ⟨m', _ | e⟩
    all_goals rw [hconnect] at hc
    · dsimp only
      split
      · exact hc
      · exact ⟨hc.block, hc.inst⟩
    · exact hc
  | edit hinsts hids _ ih => exact ih.edit hinsts hids

end Builder

/-! ## Checked blocks -/

/-- The values that a terminator uses. -/
def Terminator.uses : Terminator → List ValueId
  | .condBr v _ _ | .switch v _ _ | .throw v _ | .resume v => [v]
  | .ret v => if v = noValue then [] else [v]
  | _ => []

namespace Module

variable {m : Module} {b p : BlockId} {k : Block} {v a : ValueId} {defined : List ValueId} {ends : Array (List ValueId)}

/-- The block is a continuation block and has no predecessor but the other. -/
def Extends (m : Module) (b p : BlockId) : Prop := ∃ k, m.block? b = some k ∧ k.kind = .continue ∧ k.preds = [p]

/-- The values at the end of a block: its own, and those at the end of the block that it extends. -/
inductive Carries (m : Module) : BlockId → ValueId → Prop
  | own {b : BlockId} {k : Block} {v : ValueId} : m.block? b = some k → v ∈ k.insts → Carries m b v
  | passed {b p : BlockId} {v : ValueId} : m.Extends b p → Carries m p v → Carries m b v

/-- A value at the end of the block that a block extends. -/
def CarriedInto (m : Module) (b : BlockId) (v : ValueId) : Prop := ∃ p, m.Extends b p ∧ m.Carries p v

/-- The rules of the verifier for a block. -/
structure Checked (m : Module) (b : BlockId) (k : Block) : Prop where
  args : ∀ {before v after}, k.insts.toList = before ++ v :: after →
    ∃ i, m.inst? v = some i ∧ ∀ a ∈ i.args, a ∈ before ∨ m.CarriedInto b a
  uses : ∀ v ∈ k.term.uses, v ∈ k.insts ∨ m.CarriedInto b v
  unwind : k.term.unwind ≠ noBlock → m.isPad k.term.unwind = true

theorem verifyInsts_ok {pos : Nat} {ids defined' : List ValueId} (h : m.verifyInsts k pos ids defined = .ok defined') :
    defined' = ids.reverse ++ defined ∧ ∀ {before v after}, ids = before ++ v :: after →
      ∃ i, m.inst? v = some i ∧ ∀ a ∈ i.args, a ∈ before ∨ a ∈ defined := by
  induction ids generalizing pos defined with
  | nil =>
    cases h
    exact ⟨rfl, fun hsplit => by simp at hsplit⟩
  | cons w ids ih =>
    unfold verifyInsts at h
    split at h
    · cases h
    rename_i i hi
    split at h
    · cases h
    split at h
    · cases h
    rename_i hargs
    split at h
    · cases h
    obtain ⟨hdefined, hinst⟩ := ih h
    refine ⟨by simp [hdefined], fun {before v after} hsplit => ?_⟩
    cases before with
    | nil =>
      obtain ⟨rfl, rfl⟩ := List.cons.inj hsplit
      refine ⟨i, hi, fun a ha => .inr ?_⟩
      simpa using find?_eq_none.1 hargs a ha
    | cons u before =>
      obtain ⟨rfl, htail⟩ := List.cons.inj hsplit
      obtain ⟨j, hj, ha⟩ := hinst htail
      refine ⟨j, hj, fun a hmem => ?_⟩
      rcases ha a hmem with ha | ha
      · exact .inl (mem_cons_of_mem w ha)
      · rcases mem_cons.1 ha with rfl | ha
        · exact .inl mem_cons_self
        · exact .inr ha

theorem verifyUse_ok {ty : Ty} (h : m.verifyUse defined v ty = .ok ()) : v ∈ defined := by
  unfold verifyUse at h
  split at h
  · cases h
  · rename_i hmem
    simpa using hmem

theorem verifyTerm_ok (h : m.verifyTerm k defined = .ok ()) :
    (∀ v ∈ k.term.uses, v ∈ defined) ∧ (k.term.unwind ≠ noBlock → m.isPad k.term.unwind = true) := by
  unfold verifyTerm at h
  cases hterm : k.term with
  | none | goto | fallthrough | unreachable | unknown => simp [Terminator.uses, Terminator.unwind]
  | condBr v t e =>
    rw [hterm] at h
    dsimp only at h
    split at h
    · exact ⟨by simpa [Terminator.uses] using verifyUse_ok h, by simp [Terminator.unwind]⟩
    · cases h
  | switch v d cs =>
    rw [hterm] at h
    dsimp only at h
    split at h
    · cases h
    · split at h
      · cases h
      · exact ⟨by simpa [Terminator.uses] using verifyUse_ok h, by simp [Terminator.unwind]⟩
  | ret v =>
    rw [hterm] at h
    dsimp only at h
    split at h
    · rename_i hv
      exact ⟨by simpa [Terminator.uses, hv] using verifyUse_ok h, by simp [Terminator.unwind]⟩
    · rename_i hv
      exact ⟨by simp [Terminator.uses, not_not.1 hv], by simp [Terminator.unwind]⟩
  | throw v u =>
    rw [hterm] at h
    dsimp only [bind, Except.bind] at h
    split at h
    · cases h
    rename_i huse
    split at h
    · cases h
    · rename_i hu
      refine ⟨by simpa [Terminator.uses] using verifyUse_ok huse, fun hne => ?_⟩
      have hpad : ¬ u = noBlock → m.isPad u = true := by simpa using hu
      exact hpad hne
  | mayUnwind t u =>
    rw [hterm] at h
    dsimp only at h
    split at h
    · rename_i hedges
      exact ⟨by simp [Terminator.uses], fun _ => (Bool.and_eq_true_iff.1 hedges).2⟩
    · cases h
  | resume v =>
    rw [hterm] at h
    exact ⟨by simpa [Terminator.uses] using verifyUse_ok h, by simp [Terminator.unwind]⟩

theorem verifyBlock_ok {available : List ValueId} (h : m.verifyBlock k available = .ok defined) :
    m.verifyInsts k 0 k.insts.toList available = .ok defined ∧ m.verifyTerm k defined = .ok () := by
  unfold verifyBlock at h
  dsimp only [bind, Except.bind, pure, Except.pure] at h
  split at h
  · cases h
  rename_i defined' hinsts
  split at h
  · cases h
  rename_i hterm
  split at h
  · cases h
  · cases h
    exact ⟨hinsts, hterm⟩

/-- What the verifier takes to be available at the start of a block is carried into it. -/
theorem carriedInto_of_mem_availableAt (hk : m.block? b = some k)
    (hends : ∀ {p vs}, lookup? ends p = some vs → ∀ v ∈ vs, m.Carries p v) (hv : v ∈ availableAt ends k) : m.CarriedInto b v := by
  unfold availableAt at hv
  split at hv
  · rename_i p hkind hpreds
    split at hv
    · cases hvs : lookup? ends p with
      | none => simp [hvs] at hv
      | some vs =>
        rw [hvs] at hv
        exact ⟨p, ⟨k, hk, hkind, hpreds⟩, hends hvs v hv⟩
    · cases hv
  · cases hv

/-- **One block that the verifier accepts**, given what the blocks before it carry. -/
theorem checked_of_verifyBlock (hk : m.block? b = some k) (hends : ∀ {p vs}, lookup? ends p = some vs → ∀ v ∈ vs, m.Carries p v)
    (h : m.verifyBlock k (availableAt ends k) = .ok defined) : m.Checked b k ∧ ∀ v ∈ defined, m.Carries b v := by
  obtain ⟨hinsts, hterm⟩ := verifyBlock_ok h
  obtain ⟨rfl, hargs⟩ := verifyInsts_ok hinsts
  obtain ⟨huses, hunwind⟩ := verifyTerm_ok hterm
  have hcarried {v : ValueId} (hv : v ∈ availableAt ends k) := carriedInto_of_mem_availableAt hk hends hv
  refine ⟨⟨fun hsplit => ?_, fun v hv => ?_, hunwind⟩, fun v hv => ?_⟩
  · obtain ⟨i, hi, ha⟩ := hargs hsplit
    exact ⟨i, hi, fun a hmem => (ha a hmem).imp_right hcarried⟩
  · rcases mem_append.1 (huses v hv) with hown | hav
    · exact .inl (by simpa using hown)
    · exact .inr (hcarried hav)
  · rcases mem_append.1 hv with hown | hav
    · exact .own hk (by simpa using hown)
    · obtain ⟨p, hext, hp⟩ := hcarried hav
      exact .passed hext hp

/-- **All blocks that the verifier accepts**, one after the other. -/
theorem checked_of_verifyBlocks {bs : List Block} (hbs : m.blocks.toList.drop ends.size = bs)
    (hends : ∀ {p vs}, lookup? ends p = some vs → ∀ v ∈ vs, m.Carries p v) (h : m.verifyBlocks ends bs = .ok ())
    (hb : (ends.size : Int) ≤ b) (hk : m.block? b = some k) : m.Checked b k := by
  induction bs generalizing ends with
  | nil =>
    have hlt := (block?_lt hk).2
    have hlen := drop_eq_nil_iff.1 hbs
    simp only [Array.length_toList] at hlen
    lia
  | cons q bs ih =>
    unfold verifyBlocks at h
    split at h
    · cases h
    rename_i defined hq
    have hblock : m.block? ends.size = some q := by
      rw [block?, lookup?_ofNat, ← Array.getElem?_toList]
      have := congrArg List.head? hbs
      rwa [head?_drop, head?_cons] at this
    obtain ⟨hchecked, hdefined⟩ := checked_of_verifyBlock hblock hends hq
    by_cases heq : b = ends.size
    · subst heq
      obtain rfl := Option.mem_unique hblock hk
      exact hchecked
    refine ih ?_ (fun {p vs} hvs => ?_) h (by rw [Array.size_push]; lia)
    · rw [Array.size_push, ← drop_drop, hbs]
      rfl
    rw [lookup?_push] at hvs
    split at hvs
    · rename_i hp
      cases hvs
      exact hp ▸ hdefined
    · exact hends hvs

theorem Carries.freeze (h : m.Carries b v) : ({ m with frozen := true } : Module).Carries b v := by
  induction h with
  | own hk hv => exact .own hk hv
  | passed hext _ ih => exact .passed hext ih

theorem Checked.freeze (h : m.Checked b k) : ({ m with frozen := true } : Module).Checked b k := by
  have hcarried {a : ValueId} : m.CarriedInto b a → ({ m with frozen := true } : Module).CarriedInto b a :=
    fun ⟨p, hext, hp⟩ => ⟨p, hext, hp.freeze⟩
  refine ⟨fun hsplit => ?_, fun v hv => (h.uses v hv).imp_right hcarried, h.unwind⟩
  obtain ⟨i, hi, ha⟩ := h.args hsplit
  exact ⟨i, hi, fun a hmem => (ha a hmem).imp_right hcarried⟩

theorem checked_of_verify (h : m.verify = .ok ()) (hk : m.block? b = some k) : m.Checked b k := by
  unfold verify at h
  split at h
  · cases h
  · refine checked_of_verifyBlocks rfl (fun {p vs} hvs => ?_) h (block?_lt hk).1 hk
    simp [lookup?] at hvs

end Module

/-- **A module that could be frozen** knows its numbers, its blocks are checked, and the predecessors are entered. -/
theorem Builder.Made.frozen {b : Builder} {m : Module} (h : b.Made) (hm : b.freeze.1 = .ok m) :
    m.Numbered ∧ (∀ {c k}, m.block? c = some k → m.Checked c k) ∧
      ∀ {c c' k k'}, m.block? c = some k → c' ∈ k.term.edges → m.block? c' = some k' → c ∈ k'.preds := by
  obtain ⟨m', hconnect, hverify, rfl⟩ := freeze_ok hm
  have hl := connect_linked b.mod
  rw [hconnect] at hl
  have hn := h.numbered.linked hl
  exact ⟨⟨hn.block, hn.inst⟩, fun hk => (checked_of_verify hverify hk).freeze,
    fun hk hedge hk' => ((connect_spec h.numbered.block hconnect hk').2.1 _).2 ⟨_, hk, hedge⟩⟩

end Bytelift.Ir
