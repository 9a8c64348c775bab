import Bytelift.Proofs.Lift.Method

/-!
# Opening a module

The invariant of a lifting holds once the regions are set up, the blocks are created and the parameters
are stored. Before that the module has no code, and everything that the invariant says about it follows
from how the blocks and regions were made.

Results:
* `wp_openModule`: **the rounds may begin**.
-/

namespace Bytelift.Lift

open Ir List Module Builder

variable {cx : Context} {o : Hand} {s s' : State} {b : BlockId} {k : Block} {rows : List ExceptionEntry}

/-! ## Regions -/

theorem alike_addRow {rs rs' : List Region} (h : Forall₂ Region.Alike rs rs') (slot slot' : Slot)
    (e : ExceptionEntry) : Forall₂ Region.Alike (addRow rs slot e) (addRow rs' slot' e) := by
  have hany : rs'.any (·.handler = e.handler) = rs.any (·.handler = e.handler) := by
    have hh := congrArg (List.any · fun x => decide (x = e.handler)) (handlers_eq h (·.handler))
    rw [any_map, any_map] at hh
    exact hh
  unfold addRow
  rw [hany]
  split
  · rw [forall₂_map_left_iff, forall₂_map_right_iff]
    refine h.imp fun r r' hr => ?_
    by_cases hd : r.handler = e.handler
    · rw [if_pos hd, if_pos (hr.handler.trans hd)]
      exact ⟨hr.handler, by simp [hr.rows]⟩
    · rw [if_neg hd, if_neg fun hd' => hd (hr.handler.symm.trans hd')]
      exact hr
  · exact rel_append h (.cons ⟨rfl, rfl⟩ .nil)

theorem nodup_addRow {rs : List Region} (h : (rs.map (·.handler)).Nodup) (slot : Slot) (e : ExceptionEntry) :
    ((addRow rs slot e).map (·.handler)).Nodup := by
  rw [handlers_addRow]
  split
  · exact h
  rename_i hany
  refine nodup_append.2 ⟨h, by simp, fun x hx y hy => ?_⟩
  rintro rfl
  obtain ⟨r, hr, hh⟩ := mem_map.1 hx
  exact hany (any_eq_true.2 ⟨r, hr, by simpa [mem_singleton.1 hy] using hh⟩)

/-- A region that nothing is routed through yet. -/
structure NewRegion (s : State) (r : Region) : Prop where
  selector : ∃ n : Nat, r.selector = ⟨.temp, n⟩ ∧ s.mod.temps[n]? = some (selectorName r.handler)
  outer : r.outer = none
  exits : r.exits = []
  ends : r.ends = []

theorem newRegion_addRow {slot : Slot} {e : ExceptionEntry} (h : ∀ r ∈ s.regions, NewRegion s r)
    (hslot : ∃ n : Nat, slot = ⟨.temp, n⟩ ∧ s.mod.temps[n]? = some (selectorName e.handler)) :
    ∀ r ∈ addRow s.regions slot e, NewRegion s r := by
  intro r hr
  unfold addRow at hr
  split at hr
  · obtain ⟨r0, hr0, rfl⟩ := mem_map.1 hr
    have h0 := h r0 hr0
    split
    · exact { h0 with }
    · exact h0
  · rcases mem_append.1 hr with hr | hr
    · exact h r hr
    · obtain rfl := mem_singleton.1 hr
      exact ⟨hslot, rfl, rfl, rfl⟩

/-- A state in which nothing is lifted yet; the regions are those of the given rows. -/
structure Bare (cx : Context) (rows : List ExceptionEntry) (s : State) : Prop where
  error : s.builder.error = none
  result : s.mod.result = cx.result
  method : s.mod.method = cx.method.key
  entries : s.entries = []
  sites : s.sites = []
  pads : s.pads = []
  leaves : s.leaves = []
  returnBlock : s.returnBlock = none
  alike : List.Forall₂ Region.Alike (rows.foldl (fun rs e => addRow rs ⟨.temp, 0⟩ e) []) s.regions
  handlers : (s.regions.map (·.handler)).Nodup
  fresh : ∀ r ∈ s.regions, NewRegion s r
  temps : s.mod.temps.toList.Nodup
  asked : ∀ c, padLabel c ∉ s.builder.requested
  insts : s.mod.insts = #[]

theorem NewRegion.mono {r : Region} (hg : s.mod.Grows s'.mod) (h : NewRegion s r) : NewRegion s' r := by
  obtain ⟨n, hs, hn⟩ := h.selector
  exact ⟨⟨n, hs, hg.temp hn⟩, h.outer, h.exits, h.ends⟩

theorem Bare.grow (h : Bare cx rows s) {B : Builder} (hg : s.mod.Grows B.mod)
    (herr : B.error = none) (htemps : B.mod.temps.toList.Nodup) (hasked : ∀ c, padLabel c ∉ B.requested)
    (hinsts : B.mod.insts = s.mod.insts := by rfl) : Bare cx rows { s with builder := B } :=
  { h with
    temps := htemps
    asked := hasked
    insts := hinsts.trans h.insts
    error := herr
    result := hg.result.trans h.result
    method := (congrArg Header.method hg.header).trans h.method
    fresh := fun r hr => (h.fresh r hr).mono hg }

theorem Bare.addRow (h : Bare cx rows s) (e : ExceptionEntry) :
    Wp (do
      let selector ← temp (selectorName e.handler)
      modify fun s => { s with regions := Lift.addRow s.regions selector e }) s fun _ s' =>
        Bare cx (rows ++ [e]) s' ∧ s'.mod.blocks = s.mod.blocks := by
  obtain ⟨n, hslot, hn, hblocks, hinsts, herr, hreq⟩ := s.builder.temp_spec (selectorName e.handler)
  have h1 := h.grow (Grows.addTemp s.builder _) (herr.trans h.error) (s.builder.nodup_temp _ h.temps)
    (hreq ▸ h.asked) hinsts
  refine wp_bind.2 (wp_modifyGet.2 (wp_modify.2 ⟨{ h1 with
    alike := ?_
    handlers := nodup_addRow h.handlers _ e
    fresh := fun r hr => ?_ }, hblocks⟩))
  · rw [foldl_append]
    exact alike_addRow h.alike _ _ e
  · have hr := newRegion_addRow h1.fresh ⟨n, hslot, hn⟩ r hr
    exact { hr with }

/-- **The regions are those of the table.** -/
theorem Bare.buildRegions (h : Bare cx [] s) :
    Wp cx.buildRegions s fun _ s' => Bare cx (cx.table.filter (·.isCleanup)) s' ∧ s'.mod.blocks = s.mod.blocks := by
  have hloop : Wp ((cx.table.filter (·.isCleanup)).forM fun e => do
      let selector ← temp (selectorName e.handler)
      modify fun s => { s with regions := Lift.addRow s.regions selector e }) s fun _ s' =>
        ∃ rows, rows ++ [] = cx.table.filter (·.isCleanup) ∧ Bare cx rows s' ∧ s'.mod.blocks = s.mod.blocks := by
    refine wp_forM (I := fun l s' => ∃ rows, rows ++ l = cx.table.filter (·.isCleanup) ∧ Bare cx rows s' ∧
      s'.mod.blocks = s.mod.blocks) ?_ ⟨[], rfl, h, rfl⟩
    rintro e l s1 ⟨rows, heq, h1, hb1⟩
    refine (h1.addRow e).mono fun _ s2 hs2 => ⟨rows ++ [e], ?_, hs2.1, hs2.2.trans hb1⟩
    rw [append_assoc]
    exact heq
  refine hloop.mono fun _ s' ⟨rows, heq, hbare, hb⟩ => ?_
  rw [append_nil] at heq
  exact ⟨heq ▸ hbare, hb⟩

theorem bare_header (cx : Context) : Bare cx [] { builder := { new cx.method.key with
    mod := { (Builder.new cx.method.key).mod with result := cx.result, numLocals := cx.method.maxLocals } } } :=
  ⟨rfl, rfl, rfl, rfl, rfl, rfl, rfl, rfl, .nil, .nil, by simp, by simp [new], by simp [new], rfl⟩

/-! ## Blocks -/

/-- The blocks of a module without code: the entry block and the first `n` bytecode blocks. -/
structure Outline (cx : Context) (n : Nat) (s : State) : Prop where
  size : s.mod.blocks.size = n + 1
  entry : ∃ k, s.mod.block? 0 = some k ∧ k.kind = .entry ∧ k.start = -1
  code : ∀ {m : Nat} {B : CodeBlock}, m < n → cx.partition.blocks[m]? = some B →
    ∃ k, s.mod.block? ((m : Int) + 1) = some k ∧ k.kind = .code ∧ k.start = B.start
  blank : ∀ {b k}, s.mod.block? b = some k → k.id = b ∧ k.insts = #[] ∧ k.term = .none ∧ k.pad = none

theorem Outline.add {n : Nat} {B : CodeBlock} (h : Outline cx n s) (hs : Bare cx rows s)
    (hn : cx.partition.blocks[n]? = some B) :
    Wp (do
      let id ← newBlock (bciLabel B.start []) B.start .code
      changeBlock id fun k => { k with stop := B.stop }) s fun _ s' => Outline cx (n + 1) s' ∧ Bare cx rows s' := by
  have hlabel {c : Int} : bciLabel B.start [] ≠ padLabel c := fun hl =>
    absurd (bciLabel_injective (by simp) (by rintro _ ⟨⟩; rfl) hl).2 (by decide)
  generalize bciLabel B.start [] = label at hlabel
  let b : BlockId := s.mod.blocks.size
  let s1 : State := { s with builder := (s.builder.newBlock label B.start .code).2 }
  have hb (c : BlockId) : s1.mod.block? c = if c = b then some (s.builder.blankBlock label B.start .code)
      else s.mod.block? c := s.builder.block?_newBlock label B.start .code c
  have hself : s1.mod.block? b = some (s.builder.blankBlock label B.start .code) := by rw [hb, if_pos rfl]
  have hg1 : s.mod.Grows s1.mod := Grows.newBlock _ _ _ _
  have hg2 : s1.mod.Grows (s1.change b fun k => { k with stop := B.stop }).mod := by
    change s1.mod.Grows (s1.mod.modifyBlock b _)
    refine .modifyBlock fun k _ => ?_
    exact ⟨rfl, rfl, rfl, rfl, prefix_rfl, fun _ => ⟨rfl, .refl _⟩, fun _ hd => hd⟩
  have hold {c : BlockId} {k : Block} (hc : s.mod.block? c = some k) : c ≠ b := by
    have := (block?_lt hc).2
    lia
  have hkeep {c : BlockId} {k : Block} (hc : s.mod.block? c = some k) :
      (s1.change b fun k => { k with stop := B.stop }).mod.block? c = some k := by
    rw [State.mod, block?_modifyBlock, if_neg (hold hc)]
    exact (hb c).trans ((if_neg (hold hc)).trans hc)
  refine wp_bind.2 (wp_newBlock (wp_changeBlock hself ⟨?_, ?_⟩))
  · refine ⟨?_, ?_, fun {m B'} hm hB' => ?_, fun {c k} hc => ?_⟩
    · change (s1.mod.modifyBlock b _).blocks.size = _
      rw [size_modifyBlock]
      simpa [s1, State.mod, Builder.newBlock] using h.size
    · obtain ⟨k, hk, hkind⟩ := h.entry
      exact ⟨k, hkeep hk, hkind⟩
    · rcases Nat.lt_succ_iff_lt_or_eq.1 hm with hm | rfl
      · obtain ⟨k, hk, hrest⟩ := h.code hm hB'
        exact ⟨k, hkeep hk, hrest⟩
      obtain rfl := Option.mem_unique hn hB'
      have hid : ((m : Int) + 1) = b := by
        have := h.size
        lia
      rw [hid]
      exact ⟨_, block?_change_self hself _, rfl, rfl⟩
    · by_cases hne : c = b
      · subst hne
        rw [block?_change_self hself] at hc
        obtain rfl := Option.some.inj hc
        exact ⟨rfl, rfl, rfl, rfl⟩
      · rw [State.mod, block?_modifyBlock, if_neg hne] at hc
        exact h.blank (((hb c).trans (if_neg hne)).symm.trans hc)
  · have hasked (c : Int) : padLabel c ∉ s1.builder.requested := by
      rintro (_ | ⟨_, hm⟩)
      · exact hlabel rfl
      · exact hs.asked c hm
    refine (hs.grow hg1 hs.error hs.temps hasked).grow hg2 hs.error ?_ hasked (insts_modifyBlock ..)
    exact (temps_modifyBlock ..).symm ▸ hs.temps

/-- **The entry block is followed by the bytecode blocks.** -/
theorem Bare.createBlocks (h : Bare cx rows s) (hnil : s.mod.blocks = #[]) :
    Wp cx.createBlocks s fun id s' => id = 0 ∧ Outline cx cx.partition.blocks.length s' ∧ Bare cx rows s' := by
  have hnone (c : BlockId) : s.mod.block? c = none := by
    unfold block?
    rw [hnil]
    unfold lookup?
    split <;> simp
  have hsize : (s.mod.blocks.size : Int) = 0 := by simp [hnil]
  let s1 : State := { s with builder := (s.builder.newBlock "entry" (-1) .entry).2 }
  have hb (c : BlockId) : s1.mod.block? c = if c = 0 then some (s.builder.blankBlock "entry" (-1) .entry) else none := by
    rw [← hsize, ← hnone c]
    exact s.builder.block?_newBlock _ _ _ c
  have h1 : Bare cx rows s1 := h.grow (Grows.newBlock _ _ _ _) h.error h.temps fun c hm => by
    rcases mem_cons.1 hm with hm | hm
    · exact absurd (congrArg List.head? hm) (by rw [head?_padLabel]; decide)
    · exact h.asked c hm
  have ho1 : Outline cx 0 s1 := by
    refine ⟨by simp [s1, State.mod, Builder.newBlock, hnil], ⟨_, (hb 0).trans (if_pos rfl), rfl, rfl⟩, by simp,
      fun {b k} hk => ?_⟩
    rw [hb] at hk
    split at hk
    · obtain rfl := Option.some.inj hk
      exact ⟨by simp [*, blankBlock], rfl, rfl, rfl⟩
    · cases hk
  refine wp_bind.2 (wp_newBlock ?_)
  have hloop : Wp (cx.partition.blocks.forM fun b => do
      let id ← newBlock (bciLabel b.start []) b.start .code
      changeBlock id fun k => { k with stop := b.stop }) s1 fun _ s' =>
        ∃ done, done ++ [] = cx.partition.blocks ∧ Outline cx done.length s' ∧ Bare cx rows s' := by
    refine wp_forM (I := fun l s' => ∃ done, done ++ l = cx.partition.blocks ∧ Outline cx done.length s' ∧ Bare cx rows s')
      ?_ ⟨[], rfl, ho1, h1⟩
    rintro B l s2 ⟨done, heq, ho2, h2⟩
    have hn : cx.partition.blocks[done.length]? = some B := by simp [← heq]
    refine (ho2.add h2 hn).mono fun _ s3 hs3 => ⟨done ++ [B], by rw [append_assoc]; exact heq, ?_, hs3.2⟩
    rw [length_append]
    exact hs3.1
  refine hloop.bind fun _ s' hs' => ?_
  obtain ⟨done, heq, ho, hbare⟩ := hs'
  rw [append_nil] at heq
  exact ⟨hsize, heq ▸ ho, hbare⟩

theorem Context.blockOf_getElem (ht : cx.partition.Tiled) {n : Nat} {B : CodeBlock}
    (hn : cx.partition.blocks[n]? = some B) : cx.blockOf B.start = (n : Int) + 1 := by
  obtain ⟨m, B', hm, hs, hb⟩ := cx.blockOf_spec (mem_of_getElem? hn)
  obtain ⟨hlt, rfl⟩ := List.getElem?_eq_some_iff.1 hn
  obtain ⟨hlt', rfl⟩ := List.getElem?_eq_some_iff.1 hm
  have hstart (j : Nat) (hj : j < cx.partition.blocks.length) := ht.start_lt_stop (getElem_mem hj)
  have hpair := pairwise_iff_getElem.1 ht.stop_le_start
  obtain hlt'' | rfl | hlt'' := Nat.lt_trichotomy n m
  · have := hpair n m hlt hlt' hlt''
    have := hstart n hlt
    omega
  · exact hb
  · have := hpair m n hlt' hlt hlt''
    have := hstart m hlt'
    omega

/-! ## The start -/

theorem Outline.lawful {n : Nat} (h : Outline cx n s) (hk : s.mod.block? b = some k) : Lawful cx s b k := by
  obtain ⟨hid, hnil, hterm, hpad⟩ := h.blank hk
  refine ⟨⟨hid, fun hv => ?_, by rw [hterm]; trivial, fun hd => nomatch hpad.symm.trans hd⟩, fun hv => ?_, fun hv => ?_,
    by simp [hnil], fun hv => ?_, fun hm => (nomatch hterm.symm.trans hm), absurd (congrArg Terminator.unwind hterm),
    fun ht => (nomatch (congrArg Terminator.isThrow hterm).symm.trans ht), fun _ hne => absurd hterm hne⟩
  · simp [hnil] at hv
  · simp [hnil] at hv
  · simp [hnil] at hv
  · simp [hnil] at hv

theorem Bare.goodTables (h : Bare cx (cx.table.filter (·.isCleanup)) s) : GoodTables cx s where
  entriesNodup := by simp [h.entries]
  scheduled hx := by simp [h.entries] at hx
  leafKind hx := by simp [h.leaves] at hx
  ret hx := by simp [h.returnBlock] at hx
  padsNodup := by simp [h.pads]
  pad hx := by simp [h.pads] at hx
  site hx := by simp [h.pads] at hx
  alike := h.alike
  handlers := h.handlers
  selector r hr := (h.fresh r hr).selector
  outer r hr owner how := nomatch (h.fresh r hr).outer.symm.trans how
  exits r hr x hx := by simp [(h.fresh r hr).exits] at hx
  exitsNodup r hr := by simp [(h.fresh r hr).exits]
  ends r hr e hx := by simp [(h.fresh r hr).ends] at hx

/-- **The invariant holds of a module without code**, of which the entry block is open. -/
theorem Outline.good (h : Outline cx cx.partition.blocks.length s) (hs : Bare cx (cx.table.filter (·.isCleanup)) s)
    (ht : cx.partition.Tiled) (hh : s.mod.header = cx.header) : Good cx { blocks := [0], ahead := [cx.blockOf 0] } s := by
  obtain ⟨k0, hk0, hkind0, -⟩ := h.entry
  have hopen {b : BlockId} {k : Block} (hk : s.mod.block? b = some k) : k.term = .none := (h.blank hk).2.2.1
  have hnofault {b : BlockId} {k : Block} {c : Int} (hk : s.mod.block? b = some k) : ¬ FaultAt cx s k c := by
    unfold FaultAt
    rw [hopen hk]
    exact id
  have hlayout {n : Nat} {B : CodeBlock} (hn : cx.partition.blocks[n]? = some B) :=
    h.code (List.getElem?_eq_some_iff.1 hn).1 hn
  -- a block other than the entry has the number of its bytecode block
  have hcases {b : BlockId} {k : Block} (hk : s.mod.block? b = some k) : b = 0 ∧ k.kind = .entry ∨
      ∃ (n : Nat) (B : CodeBlock), cx.partition.blocks[n]? = some B ∧ b = (n : Int) + 1 ∧ k.kind = .code := by
    obtain ⟨hlo, hhi⟩ := block?_lt hk
    rw [h.size] at hhi
    by_cases hb : b = 0
    · subst hb
      obtain rfl := Option.mem_unique hk0 hk
      exact .inl ⟨rfl, hkind0⟩
    obtain ⟨n, rfl⟩ : ∃ n : Nat, b = (n : Int) + 1 := ⟨(b - 1).toNat, by lia⟩
    have hn : n < cx.partition.blocks.length := by lia
    have hB := getElem?_eq_getElem hn
    obtain ⟨k', hk', hkind, -⟩ := hlayout hB
    obtain rfl := Option.mem_unique hk hk'
    exact .inr ⟨n, _, hB, rfl, hkind⟩
  exact {
    toGoodTables := hs.goodTables
    slots := fun {v i} hi => by
      rw [inst?, hs.insts] at hi
      unfold lookup? at hi
      split at hi <;> simp at hi
    shapes := fun hx => by simp [hs.entries] at hx
    error := hs.error
    header := hh
    block := h.lawful
    joined := fun hp _ htp => nomatch (hopen hp).symm.trans htp
    entry := ⟨k0, hk0, hkind0⟩
    layout := hlayout
    temps := hs.temps
    labels := fun hc => absurd hc (hs.asked _)
    distinct := by simp
    opened := fun c hc => by
      obtain rfl := mem_singleton.1 hc
      exact ⟨k0, hk0, hopen hk0⟩
    closed := fun {b k} hk _ => by
      rcases hcases hk with ⟨rfl, -⟩ | ⟨n, B, hn, rfl, -⟩
      · exact .inl (mem_singleton_self _)
      · exact .inr ⟨B, mem_of_getElem? hn, (Context.blockOf_getElem ht hn).symm, by simp⟩
    pending := fun {b} hp => by
      obtain ⟨B, hB, rfl, -⟩ := hp
      obtain ⟨n, hn⟩ := mem_iff_getElem?.1 hB
      obtain ⟨k, hk, -⟩ := hlayout hn
      rw [Context.blockOf_getElem ht hn]
      exact ⟨by simp; lia, k, hk, hopen hk, (h.blank hk).2.1⟩
    unwinds := fun hk _ _ _ _ => .inl (hopen hk)
    sites := by simp [hs.sites]
    settled := fun hk hf => absurd hf (hnofault hk)
    leaf := fun hx => by simp [hs.leaves] at hx
    returns := fun hx => by simp [hs.returnBlock] at hx
    padBlock := fun {b k} hk hkind => by
      rcases hcases hk with ⟨-, hk'⟩ | ⟨n, B, -, -, hk'⟩ <;> cases hkind.symm.trans hk'
    ending := fun hk htk => nomatch (hopen hk).symm.trans htk
    leads := fun hk => .of_none (hopen hk) }

/-- The code that stores parameters of the given types from number `index` on into local variables from
`slot` on. -/
inductive ParamCode : (index slot : Nat) → List Ty → List Inst → Prop
  | nil {index slot} : ParamCode index slot [] []
  | cons {index slot ty tys i j is} (hop : i.op = .param) (himm : i.imm = Int64.ofNat index)
    (hop' : j.op = .storeSlot) (hslot : j.slot = ⟨.local, (slot : Nat)⟩) (hargs : j.args = [i.id])
    (h : ParamCode (index + 1) (slot + if ty.isWide then 2 else 1) tys is) :
    ParamCode index slot (ty :: tys) (i :: j :: is)

theorem Filling.storeParams {P : List BlockId} {kind : BlockKind} {start : Int} {is : List Inst} {tys : List Ty}
    (h : Filling cx o P s b kind start is) (index slot : Nat) :
    Wp (Context.storeParams b index slot tys) s fun _ s' => ∃ js, Filling cx o P s' b kind start (is ++ js) ∧
      ParamCode index slot tys js ∧ Keeps P s s' := by
  induction tys generalizing s is index slot with
  | nil => exact ⟨[], by simpa using h, .nil, .refl _ s⟩
  | cons ty tys ih =>
    refine wp_bind.2 (h.emit (by simp) (by nofun) rfl (by nofun) (by nofun) fun v s1 _ f1 hk1 => ?_)
    refine wp_bind.2 (f1.emit (by simp) (by nofun) rfl (by nofun) (by nofun) (fun w s2 _ f2 hk2 => ?_) fun _ => .local _)
    refine (ih f2 _ _).mono fun _ s3 ⟨js, f3, hjs, hk3⟩ => ?_
    exact ⟨_ :: _ :: js, by simpa using f3, .cons rfl rfl rfl rfl rfl hjs, (hk1.trans hk2).trans hk3⟩

/-- The block in which the lifted code starts. -/
def Starts (cx : Context) (s : State) : Prop :=
  ∃ is, s.mod.Holds 0 .entry is (.fallthrough (cx.blockOf 0)) ∧ ParamCode 0 0 cx.params is

/-- **The rounds may begin with the block at bci 0.** -/
theorem wp_openModule (ht : cx.partition.Tiled) :
    Wp cx.openModule { builder := new cx.method.key } fun _ s' =>
      Round cx 0 [] s' ∧ s'.sites = [] ∧ Starts cx s' ∧ Entered s' 0 [] := by
  refine wp_bind.2 (wp_modify.2 ?_)
  refine (bare_header cx).buildRegions.bind fun _ s1 hs1 => ?_
  refine (hs1.1.createBlocks hs1.2).bind fun entry s2 hs2 => ?_
  obtain ⟨rfl, ho2, h2⟩ := hs2
  refine wp_bind.2 (wp_modify.2 ?_)
  let s3 : State := { s2 with builder := { s2.builder with mod := { s2.mod with entry := 0, params := cx.params } } }
  have ho3 : Outline cx cx.partition.blocks.length s3 := { ho2 with }
  have h3 : Bare cx (cx.table.filter (·.isCleanup)) s3 :=
    { h2 with fresh := fun r hr =>
        ⟨(h2.fresh r hr).selector, (h2.fresh r hr).outer, (h2.fresh r hr).exits, (h2.fresh r hr).ends⟩ }
  have hheader : s3.mod.header = cx.header := by
    have hm := h3.method
    have hr := h3.result
    unfold header Context.header
    rw [hm, hr]
  have hg3 := ho3.good h3 ht hheader
  obtain ⟨k, hk, hkind, hstart⟩ := ho3.entry
  have f3 : Filling cx _ [] s3 0 .entry (-1) [] :=
    ⟨hg3, .refl _, ⟨k, hk, hkind, hstart, by rw [(ho3.blank hk).2.1]; exact .nil⟩, rfl, by simp⟩
  refine (f3.storeParams 0 0).bind fun _ s4 ⟨is, f4, his, hk4⟩ => ?_
  refine wp_bind.2 (f4.close (t := .fallthrough _) (by simp) (.inl mem_cons_self) (fun _ => f4.good.target _)
    (fun _ _ _ _ hkind => by simp at hkind) nofun nofun fun s5 _ h5 hk5 hh => ?_)
  refine (h5.enqueue 0 (show Known s5 [] by simp [Known]) (Nat.zero_le _)).mono fun _ s6 ⟨h6, hk6, hent, _⟩ => ?_
  have hkeep := (hk4.trans hk5).trans hk6
  have h7 := h6.setAhead (A := []) fun x hx => .inr (mem_singleton.1 hx ▸ h6.toGoodEntries.led hent.scheduled)
  refine ⟨⟨ht, h7, by simp, Nat.zero_le _, by simp⟩, hkeep.sites.trans h3.sites, ⟨is, ?_, his⟩, hent⟩
  exact hh.mono hk6.evolves.module (Terminator.isFinal_fallthrough _) (by simp)

end Bytelift.Lift
