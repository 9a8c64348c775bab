import Bytelift.Ir.Builder

/-!
# Modules under construction

What a step of the builder does to the blocks and instructions that a module already has, and the order
in which modules grow. A growing module never loses an instruction, a temporary or a block; a block
gets instructions at its end until it has a terminator, and a terminator is only completed: an unwind
destination is entered, or the arms of a switch that was left empty.

Results:
* one look-up lemma for each step of the builder (`block?_newBlock`, `block?_emit`, `inst?_emit`, ...);
* `Module.Grows` is reflexive and transitive, and each step of the builder is an instance of it;
* `Avail.mono`: a value that is available in a block stays so while the module grows.
-/

namespace Bytelift.Ir

open Builder

/-! ## Look-ups -/

section Lookup

variable {α : Type} {a : Array α} {i : Int} {x : α} {v : ValueId}

theorem lookup?_ofNat (a : Array α) (n : Nat) : lookup? a (n : Int) = a[n]? := by
  simp [lookup?]

theorem lookup?_eq_some_iff : lookup? a i = some x ↔ ∃ n : Nat, i = n ∧ a[n]? = some x := by
  constructor
  · intro h
    unfold lookup? at h
    split at h
    · exact ⟨i.toNat, by omega, h⟩
    · cases h
  · rintro ⟨n, rfl, h⟩
    rw [lookup?_ofNat, h]

theorem lookup?_bounds (h : lookup? a i = some x) : 0 ≤ i ∧ i < a.size := by
  obtain ⟨n, rfl, h⟩ := lookup?_eq_some_iff.1 h
  obtain ⟨hn, -⟩ := Array.getElem?_eq_some_iff.1 h
  omega

theorem exists_lookup? (h0 : 0 ≤ i) (h : i < a.size) : ∃ x, lookup? a i = some x := by
  obtain ⟨n, rfl⟩ := Int.eq_ofNat_of_zero_le h0
  have hn : n < a.size := by omega
  exact ⟨a[n], by rw [lookup?_ofNat, Array.getElem?_eq_getElem hn]⟩

theorem lookup?_push (a : Array α) (x : α) (i : Int) :
    lookup? (a.push x) i = if i = a.size then some x else lookup? a i := by
  unfold lookup?
  by_cases h0 : 0 ≤ i
  · obtain ⟨n, rfl⟩ := Int.eq_ofNat_of_zero_le h0
    simp only [Int.natCast_nonneg, if_true, Int.toNat_natCast, Array.getElem?_push, Int.natCast_inj]
  · have : i ≠ a.size := by omega
    simp [h0, this]

theorem lookup?_modify (a : Array α) (n : Nat) (f : α → α) (i : Int) :
    lookup? (a.modify n f) i = if i = n then (lookup? a i).map f else lookup? a i := by
  unfold lookup?
  by_cases h0 : 0 ≤ i
  · obtain ⟨j, rfl⟩ := Int.eq_ofNat_of_zero_le h0
    simp only [Int.natCast_nonneg, if_true, Int.toNat_natCast, Array.getElem?_modify,
      Int.natCast_inj, eq_comm]
  · have : i ≠ n := by omega
    simp [h0, this]

end Lookup

namespace Module

variable {m m' m'' : Module} {b c : BlockId} {v : ValueId} {k : Block} {i : Inst}

theorem block?_modifyBlock (m : Module) (b : BlockId) (f : Block → Block) (c : BlockId) :
    (m.modifyBlock b f).block? c = if c = b then (m.block? c).map f else m.block? c := by
  unfold modifyBlock
  by_cases h : 0 ≤ b
  · obtain ⟨n, rfl⟩ := Int.eq_ofNat_of_zero_le h
    simp only [Int.natCast_nonneg, if_true, Int.toNat_natCast, block?, lookup?_modify]
  have hb : m.block? b = none := by simp [block?, lookup?, h]
  rw [if_neg h]
  split
  · subst c
    rw [hb]
    rfl
  · rfl

@[simp] theorem inst?_modifyBlock (m : Module) (b : BlockId) (f : Block → Block) (v : ValueId) :
    (m.modifyBlock b f).inst? v = m.inst? v := by
  unfold modifyBlock
  split <;> rfl

@[simp] theorem insts_modifyBlock (m : Module) (b : BlockId) (f : Block → Block) :
    (m.modifyBlock b f).insts = m.insts := by
  unfold modifyBlock
  split <;> rfl

@[simp] theorem temps_modifyBlock (m : Module) (b : BlockId) (f : Block → Block) :
    (m.modifyBlock b f).temps = m.temps := by
  unfold modifyBlock
  split <;> rfl

/-- What a module says about its method. -/
structure Header where
  method : Text
  params : List Ty
  result : Ty
  entry : BlockId

def header (m : Module) : Header := ⟨m.method, m.params, m.result, m.entry⟩

@[simp] theorem header_modifyBlock (m : Module) (b : BlockId) (f : Block → Block) :
    (m.modifyBlock b f).header = m.header := by
  unfold modifyBlock
  split <;> rfl

@[simp] theorem size_modifyBlock (m : Module) (b : BlockId) (f : Block → Block) :
    (m.modifyBlock b f).blocks.size = m.blocks.size := by
  unfold modifyBlock
  split <;> simp

theorem block?_lt (h : m.block? b = some k) : 0 ≤ b ∧ b < m.blocks.size := lookup?_bounds h

theorem ne_size (h : m.block? b = some k) : b ≠ m.blocks.size := Int.ne_of_lt (block?_lt h).2

theorem inst?_lt (h : m.inst? v = some i) : 0 ≤ v ∧ v < m.insts.size := lookup?_bounds h

theorem hasBlock_iff : m.hasBlock b = true ↔ ∃ k, m.block? b = some k := by
  simp only [hasBlock, Bool.and_eq_true, decide_eq_true_eq]
  exact ⟨fun ⟨h0, h⟩ => exists_lookup? h0 h, fun ⟨_, h⟩ => block?_lt h⟩

theorem block?_mem (h : m.block? b = some k) : k ∈ m.blocks.toList := by
  obtain ⟨n, rfl, h⟩ := lookup?_eq_some_iff.1 h
  obtain ⟨hn, rfl⟩ := Array.getElem?_eq_some_iff.1 h
  exact Array.mem_toList_iff.2 (Array.getElem_mem hn)

end Module

/-! ## The steps of the builder -/

namespace Builder

variable (b : Builder)

/-- The block that `newBlock` appends. -/
def blankBlock (label : Text) (bci : Int) (kind : BlockKind) : Block :=
  { id := b.mod.blocks.size, label := b.freshLabel label, start := bci, stop := bci, kind := kind }

theorem block?_newBlock (label : Text) (bci : Int) (kind : BlockKind) (c : BlockId) :
    (b.newBlock label bci kind).2.mod.block? c =
      if c = b.mod.blocks.size then some (b.blankBlock label bci kind) else b.mod.block? c :=
  lookup?_push _ _ _

theorem block?_emit (blk : BlockId) (i : Inst) (c : BlockId) :
    (b.emit blk i).2.mod.block? c =
      if c = blk then (b.mod.block? c).map fun k => { k with insts := k.insts.push b.mod.insts.size }
      else b.mod.block? c := by
  simp only [emit, Module.block?_modifyBlock]
  rfl

theorem inst?_emit (blk : BlockId) (i : Inst) (v : ValueId) :
    (b.emit blk i).2.mod.inst? v =
      if v = b.mod.insts.size then some { i with id := b.mod.insts.size, block := blk }
      else b.mod.inst? v := by
  simp only [emit, Module.inst?_modifyBlock]
  exact lookup?_push _ _ _

@[simp] theorem temps_emit (blk : BlockId) (i : Inst) :
    (b.emit blk i).2.mod.temps = b.mod.temps := by
  simp [emit]

@[simp] theorem header_emit (blk : BlockId) (i : Inst) :
    (b.emit blk i).2.mod.header = b.mod.header := by
  simp only [emit, Module.header_modifyBlock]
  rfl

/-- Emitting into a block without a terminator, with operands that exist, is no mistake. -/
theorem error_emit {b : Builder} {blk : BlockId} {k : Block} {i : Inst} (he : b.error = none)
    (hk : b.mod.block? blk = some k) (ht : k.term = .none)
    (ha : ∀ a ∈ i.args, ∃ j, b.mod.inst? a = some j) : (b.emit blk i).2.error = none := by
  have harg : i.args.find? (fun a => a < 0 || (b.mod.insts.size : Int) ≤ a) = none := by
    rw [List.find?_eq_none]
    intro a hmem
    obtain ⟨j, hj⟩ := ha a hmem
    have := Module.inst?_lt hj
    simp only [Bool.or_eq_true, decide_eq_true_eq]
    lia
  simp [emit, he, hk, emitError?, ht, harg]

theorem temp_spec (b : Builder) (name : Text) : ∃ n : Nat, (b.temp name).1 = ⟨.temp, n⟩ ∧
    (b.temp name).2.mod.temps[n]? = some name ∧ (b.temp name).2.mod.blocks = b.mod.blocks ∧
    (b.temp name).2.mod.insts = b.mod.insts ∧ (b.temp name).2.error = b.error ∧ (b.temp name).2.requested = b.requested := by
  unfold temp
  split
  · rename_i n hn
    obtain ⟨hlt, hx, -⟩ := Array.findIdx?_eq_some_iff_getElem.1 hn
    exact ⟨n, rfl, by rw [Array.getElem?_eq_getElem hlt, eq_of_beq hx], rfl, rfl, rfl, rfl⟩
  · exact ⟨b.mod.temps.size, rfl, Array.getElem?_push_size, rfl, rfl, rfl, rfl⟩

theorem nodup_temp (b : Builder) (name : Text) (h : b.mod.temps.toList.Nodup) :
    (b.temp name).2.mod.temps.toList.Nodup := by
  unfold temp
  split
  · exact h
  rename_i hnone
  rw [Array.findIdx?_eq_none_iff] at hnone
  rw [Array.toList_push, List.nodup_append]
  refine ⟨h, by simp, fun x hx y hy => ?_⟩
  obtain rfl := List.mem_singleton.1 hy
  simpa using hnone x (Array.mem_toList_iff.1 hx)

end Builder

/-! ## Growth -/

/-- A terminator is completed by an unwind destination, or an empty switch by its arms. -/
inductive Terminator.Completes : Terminator → Terminator → Prop
  | unwind (t : Terminator) (u : BlockId) : Completes t (t.withUnwind u)
  | cases (v : ValueId) (cs cs' : List SwitchCase) : Completes (.switch v noBlock cs) (.switch v noBlock cs')

namespace Terminator

variable {t t' t'' : Terminator}

@[simp] theorem withUnwind_unwind (t : Terminator) : t.withUnwind t.unwind = t := by
  cases t <;> rfl

@[simp] theorem withUnwind_withUnwind (t : Terminator) (u u' : BlockId) :
    (t.withUnwind u).withUnwind u' = t.withUnwind u' := by
  cases t <;> rfl

theorem Completes.refl (t : Terminator) : t.Completes t := by
  have h := Completes.unwind t t.unwind
  rwa [withUnwind_unwind] at h

theorem Completes.trans (h : t.Completes t') (h' : t'.Completes t'') : t.Completes t'' := by
  cases h with
  | unwind _ u =>
    generalize hw : t.withUnwind u = w at h'
    cases h' with
    | unwind _ u' =>
      rw [← hw, withUnwind_withUnwind]
      exact .unwind t u'
    | cases v cs cs' =>
      cases t <;> cases hw
      exact .cases v cs cs'
  | cases v cs cs' =>
    cases h' with
    | unwind _ u => exact .cases v cs cs'
    | cases _ _ cs'' => exact .cases v cs cs''

theorem Completes.ne_none (h : t.Completes t') (ht : t ≠ .none) : t' ≠ .none := by
  cases h with
  | unwind _ u => cases t <;> simp_all [withUnwind]
  | cases v cs cs' => simp

theorem Completes.mayUnwind {n u : BlockId} (h : (Terminator.mayUnwind n u).Completes t) :
    ∃ u', t = .mayUnwind n u' := by
  cases h
  exact ⟨_, rfl⟩

theorem Completes.of_mayUnwind {n u : BlockId} (h : t.Completes (.mayUnwind n u)) :
    ∃ u', t = .mayUnwind n u' := by
  cases t <;> cases h
  exact ⟨_, rfl⟩

theorem Completes.of_switch {d : BlockId} {cs : List SwitchCase}
    (h : t.Completes (.switch v d cs)) : ∃ cs', t = .switch v d cs' := by
  cases t <;> cases h <;> exact ⟨_, rfl⟩

theorem Completes.isThrow (h : t.Completes t') : t'.isThrow = t.isThrow := by
  cases h with
  | unwind _ u => cases t <;> rfl
  | cases v cs cs' => rfl

theorem Completes.switch {d : BlockId} {cs : List SwitchCase}
    (h : (Terminator.switch v d cs).Completes t) :
    t = .switch v d cs ∨ d = noBlock ∧ ∃ cs', t = .switch v noBlock cs' := by
  cases h with
  | unwind _ u => exact .inl rfl
  | cases _ _ cs' => exact .inr ⟨rfl, cs', rfl⟩

end Terminator

/-- A block grows at its end until it has a terminator, which is only completed then. -/
structure Block.Grows (k k' : Block) : Prop where
  id : k'.id = k.id
  label : k'.label = k.label
  start : k'.start = k.start
  kind : k'.kind = k.kind
  insts : k.insts.toList <+: k'.insts.toList
  closed : k.term ≠ .none → k'.insts = k.insts ∧ k.term.Completes k'.term
  pad : ∀ d, k.pad = some d → k'.pad = some d

namespace Block.Grows

variable {k k' k'' : Block}

theorem refl (k : Block) : k.Grows k :=
  ⟨rfl, rfl, rfl, rfl, List.prefix_rfl, fun _ => ⟨rfl, .refl _⟩, fun _ h => h⟩

theorem trans (h : k.Grows k') (h' : k'.Grows k'') : k.Grows k'' where
  id := h'.id.trans h.id
  label := h'.label.trans h.label
  start := h'.start.trans h.start
  kind := h'.kind.trans h.kind
  insts := h.insts.trans h'.insts
  closed ht := by
    obtain ⟨hi, hc⟩ := h.closed ht
    obtain ⟨hi', hc'⟩ := h'.closed (hc.ne_none ht)
    exact ⟨hi'.trans hi, hc.trans hc'⟩
  pad d hd := h'.pad d (h.pad d hd)

theorem mem (h : k.Grows k') (hv : v ∈ k.insts) : v ∈ k'.insts := by
  rw [← Array.mem_toList_iff] at hv ⊢
  exact h.insts.subset hv

theorem push (hk : k.term = .none) (v : ValueId) : k.Grows { k with insts := k.insts.push v } where
  id := rfl
  label := rfl
  start := rfl
  kind := rfl
  insts := ⟨[v], by simp⟩
  closed ht := absurd hk ht
  pad _ h := h

theorem setTerm {t : Terminator} (h : k.term ≠ .none → k.term.Completes t) :
    k.Grows { k with term := t } where
  id := rfl
  label := rfl
  start := rfl
  kind := rfl
  insts := List.prefix_rfl
  closed ht := ⟨rfl, h ht⟩
  pad _ h := h

end Block.Grows

/-- A module grows: nothing that it holds is lost. -/
structure Module.Grows (m m' : Module) : Prop where
  inst : ∀ {v i}, m.inst? v = some i → m'.inst? v = some i
  temp : ∀ {n : Nat} {t}, m.temps[n]? = some t → m'.temps[n]? = some t
  block : ∀ {b k}, m.block? b = some k → ∃ k', m'.block? b = some k' ∧ k.Grows k'
  header : m'.header = m.header

namespace Module.Grows

variable {m m' m'' : Module}

theorem refl (m : Module) : m.Grows m := ⟨id, id, fun h => ⟨_, h, .refl _⟩, rfl⟩

theorem trans (h : m.Grows m') (h' : m'.Grows m'') : m.Grows m'' where
  inst hv := h'.inst (h.inst hv)
  temp hn := h'.temp (h.temp hn)
  block hb := by
    obtain ⟨k', hk', hg⟩ := h.block hb
    obtain ⟨k'', hk'', hg'⟩ := h'.block hk'
    exact ⟨k'', hk'', hg.trans hg'⟩
  header := h'.header.trans h.header

theorem result (h : m.Grows m') : m'.result = m.result := congrArg Header.result h.header

theorem modifyBlock {b : BlockId} {f : Block → Block}
    (h : ∀ k, m.block? b = some k → k.Grows (f k)) : m.Grows (m.modifyBlock b f) where
  inst hv := by rwa [inst?_modifyBlock]
  temp hn := by rwa [temps_modifyBlock]
  block {c k} hc := by
    rw [block?_modifyBlock]
    split
    · subst c
      exact ⟨f k, by rw [hc]; rfl, h k hc⟩
    · exact ⟨k, hc, .refl k⟩
  header := header_modifyBlock m b f

theorem newBlock (b : Builder) (label : Text) (bci : Int) (kind : BlockKind) :
    b.mod.Grows (b.newBlock label bci kind).2.mod where
  inst hv := hv
  temp hn := hn
  block {c k} hc := by
    have hlt := (block?_lt hc).2
    have hne : c ≠ b.mod.blocks.size := by lia
    exact ⟨k, by rw [block?_newBlock, if_neg hne, hc], .refl k⟩
  header := rfl

theorem emit {b : Builder} {blk : BlockId} {k : Block} (hk : b.mod.block? blk = some k)
    (ht : k.term = .none) (i : Inst) : b.mod.Grows (b.emit blk i).2.mod where
  inst {v j} hv := by
    have hlt := (inst?_lt hv).2
    have hne : v ≠ b.mod.insts.size := by lia
    rw [inst?_emit, if_neg hne, hv]
  temp hn := by rwa [temps_emit]
  block {c k'} hc := by
    rw [block?_emit]
    split
    · subst c
      obtain rfl : k = k' := Option.mem_unique hk hc
      exact ⟨_, by rw [hc]; rfl, .push ht _⟩
    · exact ⟨k', hc, .refl k'⟩
  header := header_emit b blk i

theorem addTemp (b : Builder) (name : Text) : b.mod.Grows (b.temp name).2.mod := by
  unfold Builder.temp
  split
  · exact .refl _
  · refine ⟨fun h => h, fun {n t} h => ?_, fun h => ⟨_, h, .refl _⟩, rfl⟩
    obtain ⟨hn, rfl⟩ := Array.getElem?_eq_some_iff.1 h
    exact Array.getElem?_eq_some_iff.2 ⟨by simp; omega, Array.getElem_push_lt hn⟩

end Module.Grows

/-- A module grows by the change of one block. -/
structure Module.Replaces (m m' : Module) (b : BlockId) (k k' : Block) : Prop where
  old : m.block? b = some k
  grows : m.Grows m'
  blocks : ∀ c, m'.block? c = if c = b then some k' else m.block? c

namespace Module.Replaces

variable {m m' : Module} {b c : BlockId} {k k' kc : Block}

theorem modifyBlock {f : Block → Block} (hk : m.block? b = some k) (hg : k.Grows (f k)) :
    m.Replaces (m.modifyBlock b f) b k (f k) := by
  refine ⟨hk, .modifyBlock fun k' hk' => Option.mem_unique hk hk' ▸ hg, fun c => ?_⟩
  rw [block?_modifyBlock]
  split
  · subst c
    rw [hk]
    rfl
  · rfl

theorem emit {B : Builder} (hk : B.mod.block? b = some k) (ht : k.term = .none) (i : Inst) :
    B.mod.Replaces (B.emit b i).2.mod b k { k with insts := k.insts.push B.mod.insts.size } := by
  refine ⟨hk, .emit hk ht i, fun c => ?_⟩
  rw [block?_emit]
  split
  · subst c
    rw [hk]
    rfl
  · rfl

theorem new (h : m.Replaces m' b k k') : m'.block? b = some k' := by rw [h.blocks, if_pos rfl]

theorem same (h : m.Replaces m' b k k') (hne : c ≠ b) : m'.block? c = m.block? c := by rw [h.blocks, if_neg hne]

theorem new_or_old (h : m.Replaces m' b k k') (hc : m'.block? c = some kc) :
    c = b ∧ kc = k' ∨ c ≠ b ∧ m.block? c = some kc := by
  rw [h.blocks] at hc
  split at hc
  · exact .inl ⟨‹_›, (Option.some.inj hc).symm⟩
  · exact .inr ⟨‹_›, hc⟩

end Module.Replaces

/-! ## Availability -/

/-- A value that the instructions of a block may use at its end: it is defined in the block, or it is
available in the block before and this block continues that one. -/
inductive Module.Avail (m : Module) : BlockId → ValueId → Prop
  | own {b : BlockId} {k : Block} {v : ValueId} (hk : m.block? b = some k) (hv : v ∈ k.insts) : Avail m b v
  | above {p b : BlockId} {kp kb : Block} {u : BlockId} {v : ValueId} (hp : m.block? p = some kp)
    (ht : kp.term = .mayUnwind b u) (hb : m.block? b = some kb) (hkind : kb.kind = .continue)
    (h : Avail m p v) : Avail m b v

/-- A value that is available at the start of a block. -/
def Module.AvailAbove (m : Module) (b : BlockId) (v : ValueId) : Prop :=
  ∃ p kp kb u, m.block? p = some kp ∧ kp.term = .mayUnwind b u ∧ m.block? b = some kb ∧
    kb.kind = .continue ∧ m.Avail p v

namespace Module

variable {m m' : Module} {b : BlockId} {v : ValueId}

theorem AvailAbove.avail (h : m.AvailAbove b v) : m.Avail b v := by
  obtain ⟨p, kp, kb, u, hp, ht, hb, hkind, h⟩ := h
  exact .above hp ht hb hkind h

theorem Avail.own_or_above (h : m.Avail b v) (hk : m.block? b = some k) : v ∈ k.insts.toList ∨ m.AvailAbove b v := by
  cases h with
  | own hk' hv => exact .inl (Array.mem_toList_iff.2 (Option.mem_unique hk hk' ▸ hv))
  | above hp ht hb hkind h => exact .inr ⟨_, _, _, _, hp, ht, hb, hkind, h⟩

/-- The step from a block to its continuation is still there in a grown module. -/
theorem Avail.continued (hg : m.Grows m') (hp : m.block? p = some kp) (ht : kp.term = .mayUnwind b u)
    (hb : m.block? b = some kb) (hkind : kb.kind = .continue) (h : m'.Avail p v) : m'.AvailAbove b v := by
  obtain ⟨kp', hp', hpp⟩ := hg.block hp
  obtain ⟨kb', hb', hbb⟩ := hg.block hb
  obtain ⟨-, hc⟩ := hpp.closed (by rw [ht]; simp)
  rw [ht] at hc
  obtain ⟨u', hu'⟩ := hc.mayUnwind
  exact ⟨p, kp', kb', u', hp', hu', hb', hbb.kind.trans hkind, h⟩

theorem Avail.mono (hg : m.Grows m') (h : m.Avail b v) : m'.Avail b v := by
  induction h with
  | own hk hv =>
    obtain ⟨k', hk', hkk⟩ := hg.block hk
    exact .own hk' (hkk.mem hv)
  | above hp ht hb hkind _ ih => exact (ih.continued hg hp ht hb hkind).avail

theorem AvailAbove.mono (hg : m.Grows m') (h : m.AvailAbove b v) : m'.AvailAbove b v := by
  obtain ⟨p, kp, kb, u, hp, ht, hb, hkind, h⟩ := h
  exact (h.mono hg).continued hg hp ht hb hkind

end Module
end Bytelift.Ir
