import Bytelift.Proofs.Lift.Cursor

/-!
# Transfers of control

Specifications of the steps that schedule blocks and that route a transfer of control through cleanup
regions. They work beside the blocks that are open: `Keeps` says that these and the cursor stay as they
are.

Results:
* `Good.leaveThrough`: **there is a block for every way out of regions**.
-/

namespace Bytelift.Lift

open Ir List Option Module Context

variable {cx : Context} {o : Hand} {s s' s'' : State} {b : BlockId} {k : Block} {owner : Owner} {handler : Int}
  {L : List BlockId}

/-! ## Beside the open blocks -/

/-- A step that leaves the cursor and the open blocks alone. -/
structure Keeps (L : List BlockId) (s s' : State) : Prop where
  evolves : Evolves s s'
  cursor : s'.cursor = s.cursor
  blocks : ∀ b ∈ L, s'.mod.block? b = s.mod.block? b
  leaves : ∀ {key b}, b ∈ L → (key, b) ∈ s'.leaves → (key, b) ∈ s.leaves
  sites : s'.sites = s.sites
  pads : s'.pads = s.pads
  descriptor : ∀ {b k k'}, s.mod.block? b = some k → s'.mod.block? b = some k' → k'.pad = k.pad

namespace Keeps

variable {L L' : List BlockId}

theorem refl (L : List BlockId) (s : State) : Keeps L s s :=
  ⟨.refl s, rfl, fun _ _ => rfl, fun _ h => h, rfl, rfl,
    fun h h' => congrArg Block.pad (mem_unique h' h)⟩

theorem trans (h : Keeps L s s') (h' : Keeps L s' s'') : Keeps L s s'' where
  evolves := h.evolves.trans h'.evolves
  cursor := h'.cursor.trans h.cursor
  blocks b hb := (h'.blocks b hb).trans (h.blocks b hb)
  leaves hb hx := h.leaves hb (h'.leaves hb hx)
  sites := h'.sites.trans h.sites
  pads := h'.pads.trans h.pads
  descriptor hk hk'' := by
    obtain ⟨k', hk', -⟩ := h.evolves.module.block hk
    exact (h'.descriptor hk' hk'').trans (h.descriptor hk hk')

theorem subset (h : Keeps L s s') (hL : ∀ b ∈ L', b ∈ L) : Keeps L' s s' :=
  { h with blocks := fun b hb => h.blocks b (hL b hb), leaves := fun hb => h.leaves (hL _ hb) }

end Keeps

/-- A step that only changes the scheduled blocks and the regions. -/
theorem Evolves.keeps (h : Evolves s s') (hc : s'.cursor = s.cursor) (hb : s'.builder = s.builder)
    (hl : s'.leaves = s.leaves) (hs : s'.sites = s.sites) (hp : s'.pads = s.pads) (L : List BlockId) :
    Keeps L s s' :=
  ⟨h, hc, fun b _ => by rw [State.mod, hb], fun _ hx => hl ▸ hx, hs, hp, fun {b k k'} hk hk' => by
    rw [State.mod, hb] at hk'
    exact congrArg Block.pad (mem_unique hk' hk)⟩

theorem wp_newBlock {label : Text} {bci : Int} {kind : BlockKind} {Q : BlockId → State → Prop}
    (hq : Q s.mod.blocks.size { s with builder := (s.builder.newBlock label bci kind).2 }) :
    Wp (newBlock label bci kind) s Q := hq

theorem Good.keeps_newBlock (h : Good cx o s) (label : Text) (bci : Int) (kind : BlockKind) :
    Keeps o.blocks s { s with builder := (s.builder.newBlock label bci kind).2 } := by
  have hold {b : BlockId} {k : Block} (hk : s.mod.block? b = some k) :
      (s.builder.newBlock label bci kind).2.mod.block? b = s.mod.block? b := by
    rw [Builder.block?_newBlock, if_neg (ne_size hk)]
  refine ⟨.of_module rfl (Grows.newBlock _ _ _ _), rfl, fun b hb => ?_, fun _ hx => hx, rfl, rfl,
    fun hk hk' => ?_⟩
  · obtain ⟨k, hk, -⟩ := h.opened b hb
    exact hold hk
  · exact congrArg Block.pad (mem_unique hk' ((hold hk).trans hk))

theorem Good.blankBlock (h : Good cx o s) {label : Text} {bci : Int} {kind : BlockKind} (hkind : kind ≠ .landingpad)
    (hlabel : ∀ {c}, label ≠ padLabel c) {Q : BlockId → State → Prop}
    (hq : ∀ s', s' = { s with builder := (s.builder.newBlock label bci kind).2 } →
      Good cx { o with blocks := s.mod.blocks.size :: o.blocks } s' → Keeps o.blocks s s' →
      s'.mod.block? s.mod.blocks.size = some (s.builder.blankBlock label bci kind) → Q s.mod.blocks.size s') :
    Wp (Lift.newBlock label bci kind) s Q := by
  refine hq _ rfl (h.newBlock label bci kind (fun _ hx => hx) (fun hx => absurd hx hkind) fun hl => (hlabel hl).elim)
    (h.keeps_newBlock label bci kind) ((Builder.block?_newBlock ..).trans (if_pos rfl))

/-- A change of one block leaves the others alone. -/
theorem keeps_of_replaces {B : Builder} {k' : Block} (hr : s.mod.Replaces B.mod b k k') (hpad : k'.pad = k.pad) (hb : b ∉ L) :
    Keeps L s { s with builder := B } := by
  refine ⟨.of_module rfl hr.grows, rfl, fun c hc => hr.same ?_, fun _ hx => hx, rfl, rfl, fun hkc hkc' => ?_⟩
  · rintro rfl
    exact hb hc
  · rcases hr.new_or_old hkc' with ⟨rfl, rfl⟩ | ⟨-, hold⟩
    · exact mem_unique hr.old hkc ▸ hpad
    · exact congrArg Block.pad (mem_unique hold hkc)

theorem keeps_emit (hk : s.mod.block? b = some k) (ht : k.term = .none) (i : Inst)
    (hb : b ∉ L) : Keeps L s { s with builder := (s.builder.emit b i).2 } :=
  keeps_of_replaces (.emit hk ht i) rfl hb

theorem keeps_setTerm {t : Terminator} (hk : s.mod.block? b = some k) (ht : k.term = .none)
    (hb : b ∉ L) : Keeps L s (s.ended b t) :=
  keeps_of_replaces (.modifyBlock hk (.setTerm (absurd ht))) rfl hb

theorem Good.temp (h : Good cx o s) (name : Text) :
    Wp (temp name) s fun slot s' => Good cx o s' ∧ Keeps o.blocks s s' ∧
      ∃ n : Nat, slot = ⟨.temp, n⟩ ∧ s'.mod.temps[n]? = some name := by
  obtain ⟨n, hslot, hn, hblocks, hinsts, herr, hreq⟩ := s.builder.temp_spec name
  have hg := Grows.addTemp s.builder name
  have hb (c : BlockId) : (s.builder.temp name).2.mod.block? c = s.mod.block? c := by
    unfold block?
    rw [hblocks]
  exact ⟨h.sameBlocks hg (herr.trans h.error) hreq (s.builder.nodup_temp name h.temps)
    (fun hk => ⟨_, _, (hb _).symm.trans hk⟩) hinsts,
    ⟨.of_module rfl hg, rfl, fun c _ => hb c, fun _ hx => hx, rfl, rfl,
    fun hk hk' => congrArg Block.pad (mem_unique hk' ((hb _).trans hk))⟩, n, hslot, hn⟩

/-! ## Scheduling -/

/-- **A block may be scheduled.** -/
theorem Good.enqueue (h : Good cx o s) (bci : Int) {shape : List Ty} (hown : Known s owner)
    (hdepth : shape.length ≤ max s.maxStack o.depth) :
    Wp (cx.enqueue bci shape owner) s fun _ s' => Good cx o s' ∧ Keeps o.blocks s s' ∧ Entered s' bci shape ∧
      Owned (· = owner.head?) bci s' := by
  refine wp_bind.2 (wp_get.2 (wp_bind.2 (wp_refuseIf trivial fun hregion => ?_)))
  have hguard : Guarded cx bci owner := by
    intro r hr hh
    obtain ⟨r', hr', halike⟩ := exists_of_mem_left h.alike hr
    by_contra hne
    exact hregion ⟨any_eq_true.2 ⟨r', hr', by simp [halike.handler, hh]⟩, hne⟩
  cases hl : s.entries.lookup bci with
  | some e =>
    refine wp_bind.2 (wp_refuseIf trivial fun hown => wp_refuseIf trivial fun hsh => ?_)
    exact ⟨h, .refl _ s, ⟨e, mem_of_lookup hl, not_not.1 hsh⟩, e, hl, not_not.1 hown⟩
  | none =>
    refine wp_bind.2 (wp_refuseIf trivial fun hB => ?_)
    obtain ⟨B, hB⟩ := ne_none_iff_exists'.1 (by simpa using hB)
    obtain ⟨hmem, hstart⟩ := Partition.blockAt?_spec hB
    refine ⟨h.schedule hl ⟨B, hmem, hstart⟩ hown hguard hdepth, (Evolves.schedule s bci _).keeps rfl rfl rfl rfl rfl _,
      ⟨_, mem_append_right _ (mem_singleton_self _), rfl⟩, ⟨shape, owner⟩, ?_, rfl⟩
    rw [lookup_append, hl]
    simp

/-! ## Regions -/

/-- There is a region with a handler. -/
def HasRegion (s : State) (handler : Int) : Prop := ∃ r ∈ s.regions, r.handler = handler

theorem HasRegion.mono (he : Evolves s s') (h : HasRegion s handler) : HasRegion s' handler := by
  obtain ⟨r, hr, hh⟩ := h
  obtain ⟨r', hr', hg⟩ := he.region hr
  exact ⟨r', hr', hg.handler.trans hh⟩

theorem wp_regionOf {Q : Region → State → Prop} (h : HasRegion s handler)
    (hq : ∀ r ∈ s.regions, r.handler = handler → Q r s) : Wp (regionOf handler) s Q := by
  obtain ⟨r0, hr0, hh0⟩ := h
  cases hf : s.regions.find? (·.handler = handler) with
  | none =>
    rw [find?_eq_none] at hf
    exact absurd (decide_eq_true hh0) (hf r0 hr0)
  | some r =>
    refine wp_bind.2 (wp_get.2 (wp_require hf ?_))
    exact hq r (mem_of_find?_eq_some hf) (by simpa using find?_some hf)

theorem GoodRegions.unique (h : GoodRegions cx s) {r r' : Region} (hr : r ∈ s.regions) (hr' : r' ∈ s.regions)
    (hh : r.handler = r'.handler) : r = r' :=
  inj_on_of_nodup_map h.handlers hr hr' hh

theorem Good.addExit (h : Good cx o s) {next : BlockId} (hr : HasRegion s handler) (hnext : Aim cx s next) :
    Wp (addExit handler next) s fun key s' => Good cx o s' ∧ Keeps o.blocks s s' ∧
      ∃ r ∈ s'.regions, r.handler = handler ∧ r.exits[key]? = some next := by
  refine wp_bind.2 (wp_regionOf hr fun r hrm hrh => ?_)
  cases hidx : r.exits.idxOf? next with
  | some key =>
    obtain ⟨hlt, hx, -⟩ := findIdx?_eq_some_iff_getElem.1 hidx
    exact ⟨h, .refl _ s, r, hrm, hrh, by rw [getElem?_eq_getElem hlt, eq_of_beq hx]⟩
  | none =>
    have hgrow : ∀ r ∈ s.regions, r.handler = handler → r.Grows { r with exits := r.exits ++ [next] } :=
      fun r _ _ => ⟨rfl, rfl, rfl, prefix_append _ _, prefix_rfl⟩
    refine ⟨h.changeRegion hgrow (fun r hr _ => h.outer r hr) (fun r hr hh => ⟨?_, fun x hx => ?_⟩)
      (fun r hr _ => h.ends r hr),
      (Evolves.changeRegion hgrow).keeps rfl rfl rfl rfl rfl _, _, mem_map.2 ⟨r, hrm, if_pos hrh⟩, hrh, ?_⟩
    · obtain rfl := h.toGoodRegions.unique hr hrm (hh.trans hrh.symm)
      have hno := findIdx?_eq_none_iff.1 hidx
      exact nodup_append.2 ⟨h.exitsNodup r hr, by simp, fun x hx y hy => by
        obtain rfl := mem_singleton.1 hy
        simpa using hno x hx⟩
    · rcases mem_append.1 hx with hx | hx
      · exact h.exits r hr x hx
      · exact mem_singleton.1 hx ▸ hnext
    · simp

/-- **The code of a region may be scheduled.** -/
theorem Good.enter (h : Good cx o s) (hr : HasRegion s handler) (hown : Known s owner) :
    Wp (cx.enter handler owner) s fun _ s' => Good cx o s' ∧ Keeps o.blocks s s' ∧ Scheduled s' handler := by
  refine wp_bind.2 (wp_regionOf hr fun r hrm hrh => ?_)
  have houter : Known s (r.outer.getD (outerOwner r owner)) := by
    cases hro : r.outer with
    | some ow => exact h.outer r hrm ow hro
    | none => exact fun x hx => hown x ((dropWhile_sublist _).subset hx)
  have hgrow : ∀ r' ∈ s.regions, r'.handler = handler →
      r'.Grows { r' with outer := some (r.outer.getD (outerOwner r owner)) } :=
    fun r _ _ => ⟨rfl, rfl, rfl, prefix_rfl, prefix_rfl⟩
  have he := Evolves.changeRegion hgrow
  have hg := h.changeRegion hgrow (fun _ _ _ ow how => Option.some.inj how ▸ houter)
    (fun r hr _ => ⟨h.exitsNodup r hr, h.exits r hr⟩)
    (fun r hr _ => h.ends r hr)
  refine wp_bind.2 (wp_modify.2 ((hg.enqueue handler ?_ (Nat.zero_le _)).mono fun _ s2 ⟨hg2, hk2, hent, _⟩ => ?_))
  · intro x hx
    rcases mem_cons.1 hx with rfl | hx
    · exact HasRegion.mono he hr
    · exact houter.mono he x hx
  · exact ⟨hg2, (he.keeps rfl rfl rfl rfl rfl _).trans hk2, hent.scheduled⟩

/-! ## Blocks that hold no bytecode -/

/-- A block that holds no bytecode and is being filled; so far it holds the given instructions, and
nothing in it can fault. -/
structure Filling (cx : Context) (o : Hand) (P : List BlockId) (s : State) (b : BlockId) (kind : BlockKind)
    (start : Int) (is : List Inst) : Prop where
  good : Good cx o s
  perm : o.blocks.Perm (b :: P)
  block : ∃ k, s.mod.block? b = some k ∧ k.kind = kind ∧ k.start = start ∧
    List.Forall₂ (fun v i => s.mod.inst? v = some i) k.insts.toList is
  plain : holdsCode kind = false
  quiet : ∀ i ∈ is, i.op.mayThrow = false

namespace Filling

variable {P : List BlockId} {kind : BlockKind} {start : Int} {is : List Inst} (h : Filling cx o P s b kind start is)
include h

theorem isOpen : b ∈ o.blocks := h.perm.mem_iff.2 mem_cons_self

theorem not_mem : b ∉ P :=
  (nodup_cons.1 (h.perm.nodup_iff.1 h.good.distinct)).1

theorem use {i : Inst} (hi : i ∈ is) : s.mod.Use b i.id i.ty := by
  obtain ⟨k, hk, -, -, his⟩ := h.block
  obtain ⟨v, hv, hinst⟩ := exists_of_mem_right his hi
  obtain ⟨before, after, heq⟩ := append_of_mem hv
  obtain ⟨j, hj, hs⟩ := (h.good.block hk).sound.inst heq
  obtain rfl := mem_unique hj hinst
  rw [hs.id]
  exact ⟨.own hk (Array.mem_toList_iff.1 hv), j, hinst, rfl⟩

theorem emit {i : Inst} (hargs : ∀ a ∈ i.args, ∃ j ∈ is, j.id = a)
    (hlp : i.op = .landingpad → is = [] ∧ kind = .landingpad) (hthrow : i.op.mayThrow = false)
    (hdiv : ¬ (i.op = .div ∨ i.op = .rem))
    (hstore : i.op = .storeSlot → i.slot.space = .temp → ∀ {k}, k.kind = kind → k.start = start → k.term = .none →
      StoreOk cx s b k i.slot) {Q : ValueId → State → Prop}
    (hq : ∀ v s', s' = { s with builder := (s.builder.emit b i).2 } →
      Filling cx o P s' b kind start (is ++ [{ i with id := v, block := b }]) → Keeps P s s' → Q v s')
    (hslot : i.Accesses → InFrame o.depth s i.slot := by simp) : Wp (emitIn b i) s Q := by
  obtain ⟨k, hk, hkind, hstart, his⟩ := h.block
  obtain ⟨k0, hk0, ht⟩ := h.good.opened b h.isOpen
  obtain rfl := mem_unique hk hk0
  have hg := Grows.emit hk ht i
  refine wp_emitIn hk (hq _ _ rfl ⟨h.good.emit h.isOpen hk ?_, h.perm, ?_, h.plain, ?_⟩ (keeps_emit hk ht i h.not_mem))
  · refine ⟨fun a ha => ?_, fun hop => ?_, fun {v j} hv hj hop => ?_, fun hop hsp => hstore hop hsp hkind hstart ht,
      fun hd => absurd hd.1 hdiv, hslot⟩
    · obtain ⟨j, hj, rfl⟩ := hargs a ha
      exact (h.use hj).1
    · obtain ⟨rfl, rfl⟩ := hlp hop
      exact ⟨by simpa using his, hkind⟩
    · -- the last instruction is one of those, which cannot fault
      have hmem : v ∈ k.insts.toList := Array.mem_toList_iff.2 (Array.mem_of_back? hv)
      obtain ⟨j', hj', hinst⟩ := exists_of_mem_left his hmem
      obtain rfl := mem_unique hinst hj
      rw [h.quiet _ hj'] at hop
      cases hop
  · refine ⟨_, block?_emit_self hk i, hkind, hstart, ?_⟩
    rw [Array.toList_push]
    exact rel_append (hg.forall₂ his) (.cons (inst?_emit_self s b i) .nil)
  · intro j hj
    rcases mem_append.1 hj with hj | hj
    · exact h.quiet j hj
    · exact mem_singleton.1 hj ▸ hthrow

theorem holds (t : Terminator) : (s.ended b t).mod.Holds b kind is t := by
  obtain ⟨k, hk, hkind, -, his⟩ := h.block
  exact ⟨_, block?_change_self hk _, hkind, rfl, his.imp fun _ _ hi => (inst?_modifyBlock ..).trans hi⟩

theorem keeps_ended (t : Terminator) : Keeps P s (s.ended b t) := by
  obtain ⟨k, hk, -⟩ := h.block
  obtain ⟨k', hk', ht⟩ := h.good.opened b h.isOpen
  obtain rfl := mem_unique hk hk'
  exact keeps_setTerm hk ht h.not_mem

/-- The block may be closed by a terminator at which nothing can fault. -/
theorem close {t : Terminator} (hne : t ≠ .none) (ht : Steers (fun x => x ∈ o.ahead ∨ Led cx s x) t)
    (hterm : ∀ k, s.mod.SoundTerm b k t)
    (hselect : ∀ {i n h}, i ∈ is → i.op = .storeSlot → i.slot = ⟨.temp, (n : Nat)⟩ →
      s.mod.temps[n]? = some (selectorName h) → (kind = .leave ∨ kind = .dispatch) →
      ∃ next, Enters cx (s.ended b t) kind b h next)
    (hret : kind = .return → Returns cx (s.ended b t) b)
    (hleaf : kind = .leave → ∀ {h hs exit}, ((h :: hs, exit), b) ∈ s.leaves →
      Leaves cx (s.ended b t) exit h hs b) {Q : PUnit → State → Prop}
    (hq : ∀ s', s' = s.ended b t → Good cx { o with blocks := P } s' → Keeps P s s' → s'.mod.Holds b kind is t → Q () s') :
    Wp (setTerm b t) s Q := by
  obtain ⟨k, hk, rfl, -, his⟩ := h.block
  -- the instructions of the block are the given ones
  have hmem {v : ValueId} {j : Inst} (hv : v ∈ k.insts) (hj : s.mod.inst? v = some j) : j ∈ is := by
    obtain ⟨j', hj', hinst⟩ := exists_of_mem_left his (Array.mem_toList_iff.2 hv)
    obtain rfl := mem_unique hinst hj
    exact hj'
  refine wp_changeBlock hk (hq _ rfl (h.good.close h.perm hk {
    ne := hne
    term := hterm k
    code := fun hc => by
      rw [h.plain] at hc
      cases hc
    select := fun hv hj => hselect (hmem hv hj)
    join := fun hx => absurd hx (ht.ne_mayUnwind _ _)
    unwinds := fun hv hi hop _ => by
      rw [h.quiet _ (hmem (Array.mem_of_back? hv) hi)] at hop
      cases hop
    split := fun hx => absurd hx (ht.ne_mayUnwind _ _)
    caught := ht.unwind
    throws := fun hx => nomatch ht.isThrow.symm.trans hx
    kept := fun x hx => hx
    sites := fun x hx => .inl hx
    settled := fun hf => absurd hf ht.not_faultAt
    ending := fun hx => absurd hx (ht.ne_switch _ _)
    leads := ⟨fun hx => absurd hx ht.ne_unreachable, fun _ => ht⟩
    leaf := fun hx => by
      obtain ⟨kl, hkl, hleave⟩ := h.good.leafKind hx
      obtain rfl := mem_unique hk hkl
      exact hleaf hleave hx
    returns := fun hx => by
      obtain ⟨k', hk', hkr⟩ := h.good.ret hx
      obtain rfl := mem_unique hk hk'
      exact hret hkr }) (h.keeps_ended t) (h.holds t))

theorem keeps {o' : Hand} {P' : List BlockId} (hg : Good cx o' s')
    (hP : o'.blocks.Perm (b :: P')) (hk : Keeps L s s') (hb : b ∈ L) : Filling cx o' P' s' b kind start is := by
  obtain ⟨k, hbk, hkind, hstart, his⟩ := h.block
  exact ⟨hg, hP, ⟨k, (hk.blocks b hb).trans hbk, hkind, hstart, hk.evolves.module.forall₂ his⟩, h.plain, h.quiet⟩

end Filling

/-- **A blank block may be made to enter a region.** -/
theorem Good.routeThrough (h : Good cx o s) {P : List BlockId} (hP : o.blocks.Perm (b :: P))
    (hk : s.mod.block? b = some k) (hnil : k.insts = #[]) (hkind : k.kind = .leave ∨ k.kind = .dispatch)
    (bci : Int) {next : BlockId} (hr : HasRegion s handler)
    (hnext : Aim cx s next) (hown : Known s owner)
    (hleaf : ∀ {h hs exit}, ((h :: hs, exit), b) ∈ s.leaves → h = handler ∧ RouteFrom cx s (Vouches cx s exit h hs) exit hs next) :
    Wp (cx.routeThrough b bci handler next owner) s fun _ s' => Good cx { o with blocks := P } s' ∧
      Keeps P s s' ∧ Enters cx s' k.kind b handler next ∧ Scheduled s' handler := by
  have hPo : ∀ c ∈ P, c ∈ o.blocks := fun c hc => hP.mem_iff.2 (mem_cons_of_mem _ hc)
  have hb : b ∈ o.blocks := hP.mem_iff.2 mem_cons_self
  have hplain : holdsCode k.kind = false ∧ k.kind ≠ .return := by rcases hkind with hkind | hkind <;> simp [hkind, holdsCode]
  -- the code of the region is scheduled behind the jump to it
  replace h := h.setAhead (A := cx.blockOf handler :: o.ahead) fun x hx => .inl (mem_cons_of_mem _ hx)
  have f : Filling cx _ P s b k.kind k.start [] := ⟨h, hP, ⟨k, hk, rfl, rfl, by simp [hnil]⟩, hplain.1, by simp⟩
  refine (h.addExit hr hnext).bind fun key s1 ⟨h1, hk1, r0, hr0, hh0, hexit⟩ => ?_
  refine wp_bind.2 (wp_regionOf (hr.mono hk1.evolves) fun r hrm hrh => ?_)
  obtain rfl := h1.toGoodRegions.unique hrm hr0 (hrh.trans hh0.symm)
  obtain ⟨n, hsel, hn⟩ := h1.selector r hrm
  have f1 := f.keeps h1 hP hk1 hb
  -- the key and its store
  refine wp_bind.2 (f1.emit (by simp) (by nofun) rfl (by nofun) (by nofun) fun v s2 hs2 f2 hk2 => ?_)
  have hn2 := hk2.evolves.module.temp hn
  refine wp_bind.2 (f2.emit (by simp) (by nofun) rfl (by nofun) (fun _ _ _ hkind' _ ht =>
    .selector hsel hn2 (hkind' ▸ hkind) (.inl ht)) (fun w s3 hs3 f3 hk3 => ?_) fun _ => hsel ▸ .temp hn2)
  have hn3 := hk3.evolves.module.temp hn2
  have hent : Enters cx (s3.ended b (.goto (cx.blockOf handler))) k.kind b handler next :=
    ⟨r, by rw [hs3, hs2]; exact hrm, hrh, key, _, _, hexit, f3.holds _, rfl, rfl, rfl, rfl, rfl⟩
  -- the jump
  refine wp_bind.2 (f3.close (t := .goto _) (by simp) (.inl mem_cons_self) (fun _ => f3.good.target handler)
    (fun {i m hd} hi hop hslot hm _ => ⟨next, ?_⟩) (fun hr => absurd hr hplain.2) (fun hleave {hd hs exit} hx => ⟨next, ?_⟩)
    fun s4 hs4 h4 hk4 _ => ?_)
  · -- the store is to the selector of the region
    have hi : i.op = .const ∨ i.slot = r.selector := by
      simp only [nil_append, cons_append, mem_cons, not_mem_nil, or_false] at hi
      rcases hi with rfl | rfl <;> simp
    have hslot' := hi.resolve_left (by rw [hop]; simp)
    obtain rfl := Int.ofNat.inj (Slot.mk.inj ((hsel.symm.trans hslot'.symm).trans hslot)).2
    obtain rfl : handler = hd := hrh.symm.trans (selectorName_injective (mem_unique hn3 hm))
    exact hent
  · have hx1 : ((hd :: hs, exit), b) ∈ s1.leaves := by
      rw [hs3, hs2] at hx
      exact hx
    obtain ⟨rfl, hroute⟩ := hleaf (hk1.leaves hb hx1)
    have he := (hk1.evolves.trans hk2.evolves).trans (hk3.evolves.trans (f3.keeps_ended (.goto (cx.blockOf hd))).evolves)
    exact ⟨hleave ▸ hent, hroute.mono he fun _ hv hnil T hT => (hv hnil T hT).mono he⟩
  · have hkeep : Keeps P s s4 := ((hk1.subset hPo).trans hk2).trans (hk3.trans hk4)
    refine (h4.enter (hr.mono hkeep.evolves) (hown.mono hkeep.evolves)).mono fun _ s5 ⟨h5, he5, hs5⟩ => ?_
    refine ⟨h5.setAhead fun x hx => ?_, hkeep.trans he5, (hs4 ▸ hent).mono he5.evolves, hs5⟩
    rcases mem_cons.1 hx with rfl | hx
    · exact .inr (h5.toGoodEntries.led hs5)
    · exact .inl hx

/-! ## Ways out -/

/-- A block without code, of a kind that neither selects exits nor routes transfers, is filled with the
code that returns. -/
theorem Good.fillReturn (h : Good cx o s) {P : List BlockId} (hP : o.blocks.Perm (b :: P))
    (hk : s.mod.block? b = some k) (hnil : k.insts = #[]) (hkind : k.kind = .return) {n : Nat}
    (hn : s.mod.temps[n]? = some resultName) :
    Wp (cx.fillReturn b ⟨.temp, n⟩) s fun _ s' => Good cx { o with blocks := P } s' ∧ Keeps P s s' ∧
      s'.returnBlock = s.returnBlock := by
  have f : Filling cx o P s b .return k.start [] := ⟨h, hP, ⟨k, hk, hkind, rfl, by simp [hnil]⟩, rfl, by simp⟩
  unfold Context.fillReturn
  split
  · rename_i hvoid
    exact f.close (t := .ret noValue) (by simp) trivial (fun _ => ⟨fun _ => h.result.trans hvoid, absurd rfl⟩)
      (by simp) (fun _ => .inl ⟨hvoid, f.holds _⟩) (by simp) fun s1 hs1 h1 hk1 _ => ⟨h1, hk1, by rw [hs1]⟩
  rename_i hval
  refine wp_bind.2 (f.emit (by simp) (by nofun) rfl (by nofun) (by nofun) (fun v s1 hs1 f1 hk1 => ?_) fun _ => .temp hn)
  have hu := f1.use (mem_append_right _ (mem_singleton_self _))
  have hn1 := (hk1.trans (f1.keeps_ended (.ret v))).evolves.module.temp hn
  refine f1.close (t := .ret v) (by simp) trivial (fun _ => ⟨fun hv => ?_, fun _ => ?_⟩) (fun hi hop => ?_)
    (fun _ => .inr ⟨_, n, hval, f1.holds _, rfl, rfl, hn1⟩) (by simp) fun s2 hs2 h2 hk2 _ => ⟨h2, hk1.trans hk2, by rw [hs2, hs1]⟩
  · obtain ⟨-, j, hj, -⟩ := hu
    exact absurd (inst?_lt hj).1 (by simp [hv, noValue])
  · rw [f1.good.result]
    exact hu
  · obtain rfl := mem_singleton.1 hi
    cases hop

/-- **There is a block that returns behind cleanup code.** -/
theorem Good.sharedReturn (h : Good cx o s) :
    Wp cx.sharedReturn s fun b s' => Good cx o s' ∧ Keeps o.blocks s s' ∧ s'.returnBlock = some b := by
  refine wp_bind.2 (wp_get.2 ?_)
  cases hret : s.returnBlock with
  | some b => exact ⟨h, .refl _ s, hret⟩
  | none =>
    refine (h.temp resultName).and_run.bind fun slot s1 hs1 => ?_
    obtain ⟨⟨h1, hk1, n, rfl, hn⟩, hrun⟩ := hs1
    have hret1 : s1.returnBlock = none := by
      obtain ⟨-, rfl⟩ := Prod.mk.inj hrun
      exact hret
    refine wp_bind.2 (h1.blankBlock (by nofun) (fun hl => ?_) fun s2 hs2 h2 hk2 hb2 => ?_)
    · exact absurd (congrArg List.head? hl) (by rw [head?_padLabel]; decide)
    refine wp_bind.2 (wp_modify.2 ?_)
    have hret2 : s2.returnBlock = none := hs2 ▸ hret1
    have h3 := h2.setReturn hret2 mem_cons_self hb2 rfl
    refine (h3.fillReturn (.refl _) hb2 rfl rfl (hk2.evolves.module.temp hn)).bind fun _ s4 ⟨h4, hk4, hret4⟩ => ?_
    have hk3 := (Evolves.setReturn hret2 s1.mod.blocks.size).keeps rfl rfl rfl rfl rfl o.blocks
    exact ⟨h4, (hk1.trans hk2).trans (hk3.trans hk4), hret4⟩

/-- **There is a block for every way out of regions.** A jump vouches for the block that leaves its last region. -/
theorem Good.leaveThrough (h : Good cx o s) (source : Int) (exit : Exit) (hown : Known s owner)
    {hs : List Int} (hhs : ∀ x ∈ hs, HasRegion s x) {V : Option Int → Prop} (hV : V owner.head?)
    (hj : ∀ x, hs.getLast? = some x → ∀ T, exit = .jump T → JumpsThrough cx s T x owner.head?) :
    Wp (cx.leaveThrough source exit owner hs) s fun b s' => Good cx o s' ∧ Keeps o.blocks s s' ∧
      RouteFrom cx s' V exit hs b := by
  induction hs generalizing s o V with
  | nil =>
    cases exit with
    | ret =>
      exact h.sharedReturn
    | jump target =>
      refine (h.enqueue target hown (Nat.zero_le _)).bind fun _ s1 hs1 => ?_
      obtain ⟨h1, hk1, -, howned⟩ := hs1
      exact ⟨h1, hk1, rfl, howned.mono (.refl _) fun _ hx => hx ▸ hV⟩
  | cons handler rest ih =>
    refine wp_bind.2 (wp_get.2 ?_)
    cases hl : s.leaves.lookup (handler :: rest, exit) with
    | some b => exact ⟨h, .refl _ s, mem_of_lookup hl⟩
    | none =>
      let b : BlockId := s.mod.blocks.size
      have hfresh {key : List Int × Exit} (hx : (key, b) ∈ s.leaves) : False := by
        obtain ⟨k, hk, -⟩ := h.leafKind hx
        exact ne_size hk rfl
      refine wp_bind.2 (h.blankBlock (by nofun) (by exact bciLabel_ne_padLabel rfl rfl (by decide)) fun s1 hs1 h1 hk1 hb1 => ?_)
      refine wp_bind.2 (wp_modify.2 ?_)
      let s2 : State := { s1 with leaves := s1.leaves ++ [((handler :: rest, exit), b)] }
      have h2 : Good cx { o with blocks := b :: o.blocks } s2 := h1.addLeaf mem_cons_self hb1 rfl
      have hno : b ∉ o.blocks := (nodup_cons.1 h2.distinct).1
      have hk2 : Keeps o.blocks s s2 := by
        refine { hk1 with evolves := hk1.evolves.trans (Evolves.addLeaf s1 _ b), leaves := fun {key c} hc hx => ?_ }
        refine hk1.leaves hc ((mem_append.1 hx).resolve_right fun hx => ?_)
        obtain ⟨-, rfl⟩ := Prod.mk.inj (mem_singleton.1 hx)
        exact hno hc
      have hvouch : Vouches cx s2 exit handler rest owner.head? :=
        fun hnil T hT => (hj handler (by rw [hnil]; rfl) T hT).mono hk2.evolves
      refine (ih h2 (hown.mono hk2.evolves) (fun x hx => (hhs x (mem_cons_of_mem _ hx)).mono hk2.evolves) hvouch
        fun x hx T hT => (hj x (by rw [getLast?_cons, hx]; rfl) T hT).mono hk2.evolves).bind fun next s3 hs3 => ?_
      obtain ⟨h3, hk3, hroute⟩ := hs3
      have hb3 := (hk3.blocks b mem_cons_self).trans hb1
      have he3 := hk2.evolves.trans hk3.evolves
      -- the block was entered for this way out only
      have hleaf {x : Int} {xs : List Int} {exit' : Exit} (hx : ((x :: xs, exit'), b) ∈ s3.leaves) :
          x = handler ∧ RouteFrom cx s3 (Vouches cx s3 exit' x xs) exit' xs next := by
        rcases mem_append.1 (hk3.leaves mem_cons_self hx) with hx | hx
        · exact (hfresh (hs1 ▸ hx)).elim
        · obtain ⟨hkey, -⟩ := Prod.mk.inj (mem_singleton.1 hx)
          obtain ⟨hhs, rfl⟩ := Prod.mk.inj hkey
          obtain ⟨rfl, rfl⟩ := List.cons.inj hhs
          exact ⟨rfl, hroute.mono (.refl _) fun _ hv hnil T hT => (hv hnil T hT).mono hk3.evolves⟩
      refine (h3.routeThrough (.refl _) hb3 rfl (.inl rfl) source ((hhs handler mem_cons_self).mono he3) (h3.aim hroute)
        (hown.mono he3) hleaf).bind fun _ s4 hs4 => ?_
      obtain ⟨h4, hk4, -, -⟩ := hs4
      refine ⟨h4, (hk2.trans (hk3.subset fun c hc => mem_cons_of_mem _ hc)).trans hk4, ?_⟩
      refine hk4.evolves.leaves.subset (hk3.evolves.leaves.subset ?_)
      exact mem_append_right _ (mem_singleton_self _)

/-- The handlers of the regions that a transfer leaves are those of regions. -/
theorem hasRegion_exited {source : Int} {exit : Exit} {x : Int}
    (hx : x ∈ (exitedRegions s.regions source exit).map (·.handler)) : HasRegion s x := by
  obtain ⟨r, hr, rfl⟩ := mem_map.1 hx
  exact ⟨r, mem_of_mem_filter hr, rfl⟩

theorem Good.leave (h : Good cx o s) (source : Int) (exit : Exit) (hown : Known s owner)
    (hj : ∀ T, exit = .jump T → JumpsFrom cx s owner.head? source T) {regions : List Region} (hregions : regions.map (·.handler) =
      (exitedRegions s.regions source exit).map (·.handler)) :
    Wp (cx.leave source regions exit owner) s fun b s' => Good cx o s' ∧ Keeps o.blocks s s' ∧
      Route cx s' owner.head? source exit b ∧ s'.mod.Target b := by
  refine wp_bind.2 (wp_refuseIf trivial fun _ => ?_)
  rw [hregions]
  refine (h.leaveThrough (V := (· = owner.head?)) source exit hown (fun x hx => hasRegion_exited hx) rfl
    fun x hx T hT => ⟨source, hj T hT, ?_⟩).mono
    fun b s1 ⟨h1, hk1, hroute⟩ => ⟨h1, hk1, ?_, (h1.aim hroute).target⟩
  · rw [leftHandlers_eq h.toGoodRegions, ← hT]
    exact hx
  unfold Route
  rw [exited_handlers hk1.evolves]
  exact hroute

/-- **There is a block for every transfer of control to a bci.** -/
theorem Good.edge (h : Good cx o s) (hown : Known s s.cursor.owner) (target : Int)
    (hj : JumpsFrom cx s s.cursor.owner.head? s.cursor.bci target) (hdepth : s.cursor.stack.length ≤ max s.maxStack o.depth) :
    Wp (cx.edge target) s fun b s' => Good cx o s' ∧ Keeps o.blocks s s' ∧
      Route cx s' s.cursor.owner.head? s.cursor.bci (.jump target) b ∧ s'.mod.Target b ∧
      (exitedRegions s.regions s.cursor.bci (.jump target) = [] →
        Entered s' target (s.cursor.stack.reverse.map (·.ty))) := by
  refine wp_bind.2 (wp_get.2 ?_)
  dsimp only
  have hleave := h.leave s.cursor.bci (.jump target) hown (fun _ hT => Exit.jump.inj hT ▸ hj) rfl
  generalize hex : exitedRegions s.regions s.cursor.bci (.jump target) = regions at hleave ⊢
  cases regions with
  | nil =>
    rw [wp_bind, wp_stackShape]
    refine (h.enqueue target hown (by simpa using hdepth)).bind fun _ s1 ⟨h1, hk1, hent, howned⟩ => ?_
    refine ⟨h1, hk1, ?_, h1.target target, fun _ => hent⟩
    unfold Route
    rw [(exited_eq_nil hk1.evolves).2 hex]
    exact ⟨rfl, howned⟩
  | cons r rs =>
    refine wp_bind.2 (wp_refuseHereIf trivial fun _ => ?_)
    refine hleave.mono fun b s1 ⟨h1, hk1, hroute, htar⟩ => ⟨h1, hk1, hroute, htar, fun hx => by cases hx⟩

/-! ## Transfers at the cursor -/

section Cursor

variable {B : CodeBlock} {O : Rest}

/-- A step beside the block at the cursor leaves it as it is. -/
theorem Working.keeps (h : Working cx B O s) (hg : Good cx (O.add s.cursor.block).hand s')
    (hk : Keeps (s.cursor.block :: O.blocks) s s') : Appends cx B O s s' := by
  obtain ⟨k, hb, hw, hwait⟩ := h.block
  have hb' : s'.mod.block? s.cursor.block = some k := (hk.blocks _ mem_cons_self).trans hb
  refine ⟨⟨hk.cursor ▸ hg, h.tiled, h.mem, ⟨k, hk.cursor ▸ hb', hw, ?_⟩, hk.cursor ▸ h.here,
    h.owner.mono hk.evolves (by rw [hk.cursor])⟩, ⟨hk.evolves, fun hu => ?_, by rw [hk.cursor], by rw [hk.cursor]⟩,
    by rw [hk.cursor], fun b hb => hk.blocks b (mem_cons_of_mem _ hb)⟩
  · rw [hk.cursor]
    cases hp : s.cursor.pending with
    | none =>
      rw [hp] at hwait
      intro v j hv hj
      exact hwait hv ((h.good.block hb).inst_of_grows hk.evolves.module (Array.mem_of_back? hv) hj)
    | some c =>
      rw [hp] at hwait
      obtain ⟨hlo, hhi, hprot, v, j, hv, hj, hrest⟩ := hwait
      exact ⟨hlo, hhi, hprot, v, j, hv, hk.evolves.module.inst hj, hrest⟩
  · rw [hk.cursor]
    exact hu.mono hk.evolves.module

/-- The last instruction at the cursor keeps a value for the return behind cleanup code. -/
def SavesAt (s : State) : Prop := ∀ {k}, s.mod.block? s.cursor.block = some k → Saves s k.insts.back?

theorem SavesAt.keeps (hk : Keeps (s.cursor.block :: L) s s') (h : SavesAt s) : SavesAt s' := by
  intro k hb
  rw [hk.cursor, hk.blocks _ mem_cons_self] at hb
  exact (h hb).mono hk.evolves

/-- **The last instruction of a bytecode block may pass control on to a bci.** -/
theorem Working.edge (h : Working cx B O s) {i : Instruction} (hi : AtLast B s i) {target : Int} (ht : .jump target ∈ i.exits)
    (hd : s.cursor.stack.length ≤ max s.maxStack O.depth) :
    Wp (cx.edge target) s fun b s' => Appends cx B O s s' ∧ Route cx s' O.owner.head? i.bci (.jump target) b ∧
      s'.mod.Target b := by
  obtain ⟨hc, e, he, hown⟩ := h.owner
  have hlast : LastOf cx B.start i :=
    ⟨B, h.mem, Int.le_refl _, by exact_mod_cast h.tiled.start_lt_stop h.mem, hi.last⟩
  have hj : JumpsFrom cx s s.cursor.owner.head? s.cursor.bci target :=
    ⟨B.start, e, i, he, hlast, ht, hi.bci.symm, by rw [hown, hc]⟩
  refine (h.good.edge h.known target hj hd).mono fun _ _ ⟨hg, hk, hroute, htar, _⟩ => ⟨h.keeps hg hk, ?_, htar⟩
  rwa [hc, hi.bci] at hroute

/-- The values of the symbolic stack can be stored where a return value is kept. -/
theorem Ready.saveResult (h : Ready cx B O s) {v : ValueId} {ty : Ty}
    (hv : v ≠ noValue → s.mod.Use s.cursor.block v ty) :
    Wp (cx.saveResult v) s fun _ s' => Appends cx B O s s' ∧ (v ≠ noValue → SavesAt s') := by
  unfold Context.saveResult
  split
  · rename_i hno
    exact ⟨h.toWorking.appends, absurd hno⟩
  rename_i hne
  refine (h.good.temp resultName).bind fun slot s1 hs1 => ?_
  obtain ⟨hg1, hk1, n, rfl, hn⟩ := hs1
  have ha := h.toWorking.keeps hg1 hk1
  have hplain := PlainTemp.of_head hn head?_resultName (by decide)
  refine (ha.working.storeLast hplain.storable (ha.proceeds.use (hv hne))).mono fun _ s2 ⟨ha2, w, k, hk, hback, hw⟩ => ?_
  refine ⟨ha.trans ha2, fun _ k' hk' => ?_⟩
  obtain rfl := mem_unique hk hk'
  exact ⟨w, v, _, n, hback, hw, rfl, rfl, rfl, ha2.proceeds.evolves.module.temp hn⟩

/-- **A method may be left**, through the regions that protect the return. -/
theorem Ready.exitMethod (h : Ready cx B O s) {i : Instruction} (hi : AtLast B s i) (hop : i.op.isReturn = true)
    {v : ValueId} (hvoid : v = noValue → cx.result = .void)
    (hv : v ≠ noValue → s.mod.Use s.cursor.block v cx.result) :
    Wp (cx.exitMethod v) s fun _ s' => Finishes cx B O s s' := by
  refine wp_bind.2 (wp_get.2 ?_)
  dsimp only
  generalize hex : exitedRegions s.regions s.cursor.bci .ret = regions
  cases regions with
  | nil =>
    refine h.toWorking.terminate hi (by simp) (by simp) rfl (by simp) (fun hu he k => ?_) (fun _ _ => ?_)
      (fun hj => by cases hj)
    · rw [SoundTerm, he.module.result, h.good.result]
      exact ⟨hvoid, fun hne => hu (hv hne)⟩
    · refine .ret hop ?_
      rwa [← hi.bci]
  | cons r rs =>
    dsimp only
    refine (h.saveResult hv).bind fun _ s1 ⟨ha1, hsave⟩ => ?_
    have he1 := ha1.proceeds.evolves
    refine (ha1.working.good.leave s.cursor.bci .ret (h.known.mono he1) nofun ?_).bind fun b s2 hs2 => ?_
    · rw [exited_handlers he1, hex]
    obtain ⟨hg2, hk2, hroute, htar⟩ := hs2
    have ha2 := ha1.trans (ha1.working.keeps hg2 hk2)
    have hi2 : AtLast B s2 i := ⟨hi.last, ha2.proceeds.bci.trans hi.bci⟩
    have htail {t : Terminator} (ht : Passes t b) : TailAt cx s2 O.owner.head? i t := by
      intro k hk
      rw [h.owner.1, hi.bci] at hroute
      refine .leave ht hop (fun hnil => ?_) hroute fun hval => ?_
      · rw [← hi.bci, exited_eq_nil ha2.proceeds.evolves, hex] at hnil
        cases hnil
      · exact SavesAt.keeps hk2 (hsave fun hno => hval (hvoid hno)) hk
    refine (ha2.working.terminate (t := .goto b) hi2 (by simp) (by simp) rfl (by simp) (fun _ he _ => htar.mono he.module)
      nofun (fun hj => ?_)).mono fun _ s3 hf => { hf with evolves := ha2.proceeds.evolves.trans hf.evolves }
    obtain rfl := Option.some.inj hj
    exact ⟨htar, htail⟩

/-- **Cleanup code may be ended**: the end switches on the selector of its region. -/
theorem Working.endCleanup (h : Working cx B O s) {i : Instruction} (hi : AtLast B s i) (hop : i.op = .endfinally) :
    Wp cx.endCleanup s fun _ s' => Finishes cx B O s s' := by
  refine wp_bind.2 (wp_get.2 ?_)
  cases hown : s.cursor.owner with
  | nil => exact wp_failHere trivial
  | cons handler rest =>
    have hr : HasRegion s handler := h.known handler (hown ▸ mem_cons_self)
    refine wp_bind.2 (wp_regionOf hr fun r hrm hrh => ?_)
    obtain ⟨n, hsel, hn⟩ := h.good.selector r hrm
    refine (h.emit (i := { op := .loadSlot, ty := .i32, slot := r.selector }) (.loading (hsel ▸ .temp hn))).bind
      fun v s1 ⟨ha1, hu1, ⟨k, hk, hback, hv⟩, hp⟩ => ?_
    replace hp := hp rfl
    -- the end of the block, in which no instruction waits
    let s2 : State := { s1 with cursor := { s1.cursor with stack := [], done := true } }
    have hs2 : SameTables s1 s2 := .put _
    have h2 : Working cx B O s2 := ha1.working.congr hs2 rfl rfl rfl ha1.working.here
    have hi2 : AtLast B s2 i := ⟨hi.last, ha1.proceeds.bci.trans hi.bci⟩
    have hclose : Wp (cx.terminate (.switch v noBlock [])) { s1 with cursor := { s1.cursor with stack := [] } }
        fun _ s3 => Good cx { O.hand with ending := [s1.cursor.block] } s3 ∧ Evolves s2 s3 ∧ s3.cursor = s2.cursor ∧
          s3.mod = (s2.ended s1.cursor.block (.switch v noBlock [])).mod := by
      have hend := h2.close (E := [s1.cursor.block]) (t := .switch v noBlock []) hp hi2 (by simp) (by simp) rfl
        (fun k => ⟨absurd rfl, by simp, hu1⟩) (fun _ => .finish hop) (fun _ => mem_singleton_self _)
      exact wp_terminate_of_none hp hend
    refine wp_bind.2 (wp_modify.2 (hclose.bind fun _ s3 ⟨hg3, he3, hc3, hm3⟩ => ?_))
    have he : Evolves s s3 := ha1.proceeds.evolves.trans (hs2.evolves.trans he3)
    obtain ⟨r', hr', hgrow⟩ := he.region hrm
    have hk3 : s3.mod.block? s1.cursor.block = some { k with term := .switch v noBlock [] } := by
      rw [hm3]
      exact block?_change_self hk _
    have hend : EndOk s3 r' s1.cursor.block v :=
      ⟨_, _, [], hk3, hback, he3.module.inst (hs2.evolves.module.inst hv), rfl, hgrow.selector.symm, rfl⟩
    have hg4 := hg3.addEnd (E := []) rfl hr' (hgrow.handler.trans hrh) hend
    have hb3 : s3.cursor.block = s1.cursor.block := by rw [hc3]
    refine wp_bind.2 (wp_get.2 (wp_modify.2 ?_))
    rw [hb3]
    refine ⟨hg4, he.trans (Evolves.changeRegion fun r _ _ => ?_), by rw [hc3], i, none, .switch v noBlock [],
      hi.last, .finish hop⟩
    exact ⟨rfl, rfl, rfl, prefix_rfl, prefix_append _ _⟩

end Cursor

end Bytelift.Lift
