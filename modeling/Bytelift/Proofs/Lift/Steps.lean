import Bytelift.Proofs.Lift.Monotone

/-!
# Steps that keep the invariant

One lemma for each elementary change of the state: a new block, a new temporary, an instruction, a
terminator, a scheduled block, an exit or an end of a region, a site, a leave block. Each says what has
to be shown for the change itself; the rest of the invariant is carried over by monotonicity.
-/

namespace Bytelift.Lift

open Ir List Option Module Builder

variable {cx : Context} {o : Hand} {s s' : State} {b : BlockId} {k : Block} {B : Builder} {S : List Site}

/-- States that differ in their cursor, their records or the depth of their stack only. -/
structure SameTables (s s' : State) : Prop where
  builder : s'.builder = s.builder
  entries : s'.entries = s.entries
  regions : s'.regions = s.regions
  sites : s'.sites = s.sites
  pads : s'.pads = s.pads
  leaves : s'.leaves = s.leaves
  returnBlock : s'.returnBlock = s.returnBlock
  maxStack : s.maxStack ≤ s'.maxStack

theorem SameTables.deepen {n : Nat} (hn : s.maxStack ≤ n) {c : Cursor} {l : List Record} :
    SameTables s { s with cursor := c, maxStack := n, records := l } := ⟨rfl, rfl, rfl, rfl, rfl, rfl, rfl, hn⟩

theorem SameTables.put (s : State) {c : Cursor} {l : List Record} : SameTables s { s with cursor := c, records := l } :=
  .deepen (Nat.le_refl _)

theorem SameTables.evolves (h : SameTables s s') : Evolves s s' :=
  ⟨by rw [State.mod, State.mod, h.builder]; exact .refl _, h.entries ▸ prefix_rfl,
    h.pads ▸ prefix_rfl, h.leaves ▸ prefix_rfl, h.returnBlock.trans,
    h.regions ▸ forall₂_same.2 fun r _ => .refl r, h.maxStack⟩

/-! ## What a change leaves alone -/

theorem InFrame.mono {d d' : Nat} {slot : Slot} (h : InFrame d s slot) (he : Evolves s s')
    (hd : d ≤ max s'.maxStack d' := by exact Nat.le_max_right _ _) : InFrame d' s' slot := by
  cases h with
  | «local» i => exact .local i
  | stack h => exact .stack (h.trans_le (max_le (le_max_of_le_left he.maxStack) hd))
  | temp h => exact .temp (he.module.temp h)

theorem GoodFrame.evolve {d d' : Nat} (h : GoodFrame d s) (he : Evolves s s') (hn : s'.entries = s.entries)
    (hnew : ∀ {v i}, s'.mod.inst? v = some i → s.mod.inst? v = some i ∨ (i.Accesses → InFrame d s i.slot))
    (hd : d ≤ max s'.maxStack d' := by exact Nat.le_max_right _ _) : GoodFrame d' s' where
  slots hi hacc := ((hnew hi).elim (h.slots · hacc) (· hacc)).mono he hd
  shapes hx := (h.shapes (hn ▸ hx)).trans (max_le (le_max_of_le_left he.maxStack) hd)

theorem GoodModule.evolve (h : GoodModule cx s) (he : Evolves s s') (hb : s'.builder = s.builder) :
    GoodModule cx s' := by
  have hm : s'.mod = s.mod := congrArg mod hb
  exact {
    error := hb ▸ h.error
    header := hm ▸ h.header
    block := fun hk => (h.block (hm ▸ hk)).mono he
    joined := by rw [hm]; exact h.joined
    entry := by rw [hm]; exact h.entry
    layout := by rw [hm]; exact h.layout
    temps := hm ▸ h.temps
    labels := by rw [hm, hb]; exact h.labels }

theorem GoodEntries.evolve (h : GoodEntries cx s) (he : Evolves s s') (hn : s'.entries = s.entries) :
    GoodEntries cx s' where
  entriesNodup := hn ▸ h.entriesNodup
  scheduled hx := by
    rw [hn] at hx
    exact ⟨(h.scheduled hx).1.mono he, (h.scheduled hx).2⟩

theorem GoodExits.evolve (h : GoodExits s) (he : Evolves s s') (hl : s'.leaves = s.leaves)
    (hr : s'.returnBlock = s.returnBlock) : GoodExits s' where
  leafKind hx := by
    obtain ⟨k, hk, hkind⟩ := h.leafKind (hl ▸ hx)
    obtain ⟨k', hk', hg⟩ := he.module.block hk
    exact ⟨k', hk', hg.kind.trans hkind⟩
  ret hx := by
    obtain ⟨k, hk, hkind⟩ := h.ret (hr ▸ hx)
    obtain ⟨k', hk', hg⟩ := he.module.block hk
    exact ⟨k', hk', hg.kind.trans hkind⟩

theorem GoodPads.evolve (h : GoodPads cx s) (he : Evolves s s') (hp : s'.pads = s.pads) :
    GoodPads cx s' where
  padsNodup := hp ▸ h.padsNodup
  pad hx := (h.pad (hp ▸ hx)).mono he
  site hx := by
    obtain ⟨b, k, hk, hf⟩ := h.site (hp ▸ hx)
    exact ⟨b, hf.evolve he hk⟩

theorem GoodRegions.evolve (h : GoodRegions cx s) (he : Evolves s s') (hr : s'.regions = s.regions) :
    GoodRegions cx s' where
  alike := hr ▸ h.alike
  handlers := hr ▸ h.handlers
  selector r hx := by
    obtain ⟨n, hn, ht⟩ := h.selector r (hr ▸ hx)
    exact ⟨n, hn, he.module.temp ht⟩
  outer r hx owner ho := (h.outer r (hr ▸ hx) owner ho).mono he
  exits r hx x hm := (h.exits r (hr ▸ hx) x hm).mono he
  exitsNodup r hx := h.exitsNodup r (hr ▸ hx)
  ends r hx e hm := (h.ends r (hr ▸ hx) e hm).mono he (.refl r)

/-- The open parts stay as they are when only tables change: a site may move between the hand and the
table, a landingpad may move from the hand to the table, and a new leave block is open. -/
theorem Ledger.retable (h : Ledger cx o s) {o' : Hand} (he : Evolves s s') (hb : s'.builder = s.builder)
    (hsites : ∀ t, t ∈ s'.sites ++ o'.sites ↔ t ∈ s.sites ++ o.sites)
    (hleaf : ∀ {h hs exit b}, ((h :: hs, exit), b) ∈ s'.leaves →
      ((h :: hs, exit), b) ∈ s.leaves ∨ b ∈ o.blocks)
    (hret : ∀ {b}, s'.returnBlock = some b → s.returnBlock = some b ∨ b ∈ o.blocks)
    (hpads : ∀ {b k}, b ∈ o.pads → s.mod.block? b = some k → b ∈ o'.pads ∨ (k.start, b) ∈ s'.pads)
    (hblocks : o'.blocks = o.blocks := by rfl) (hbegun : o'.begun = o.begun := by rfl)
    (hending : o'.ending = o.ending := by rfl) (hahead : o'.ahead = o.ahead := by rfl) (hidle : o'.idle = o.idle := by rfl) :
    Ledger cx o' s' := by
  have hm : s'.mod = s.mod := congrArg mod hb
  have hfault {k : Block} {c : Int} (hf : FaultAt cx s' k c) : FaultAt cx s k c := by
    unfold FaultAt at hf ⊢
    rwa [hm] at hf
  have hpend (b : BlockId) : Pending cx o' b ↔ Pending cx o b := by rw [Pending, Pending, hbegun]
  exact {
    distinct := hblocks ▸ h.distinct
    opened := by rw [hm, hblocks]; exact h.opened
    closed := fun {b k} hk ht => by
      rw [hblocks, hpend]
      exact h.closed (hm ▸ hk) ht
    pending := fun hp => by
      rw [hm, hblocks]
      exact h.pending ((hpend _).1 hp)
    unwinds := by rw [hm]; exact h.unwinds
    sites := fun t ht => by
      obtain ⟨hown, k, hk, hf⟩ := h.sites t ((hsites t).1 ht)
      exact ⟨hown.mono he, k, hm ▸ hk, hf.mono he⟩
    settled := fun hk hf => by
      rcases h.settled (hm ▸ hk) (hfault hf) with ⟨hu, t, ht, htb, htc⟩ | hp
      · exact .inl ⟨hu, t, (hsites t).2 ht, htb, htc⟩
      · exact .inr (he.pads.subset hp)
    leaf := fun hx => by
      rw [hblocks]
      rcases hleaf hx with hx | hx
      · exact (h.leaf hx).imp_right fun hl => hl.mono he
      · exact .inl hx
    returns := fun hx => by
      rw [hblocks]
      rcases hret hx with hx | hx
      · exact (h.returns hx).imp_right (Returns.mono he)
      · exact .inl hx
    padBlock := fun hk hkind => by
      rw [hm] at hk
      rcases h.padBlock hk hkind with hx | hx
      · exact hpads hx hk
      · exact .inr (he.pads.subset hx)
    ending := fun hk ht => by
      rw [hm] at hk
      rw [hending]
      exact (h.ending hk ht).imp_right (he.ends_mono)
    leads := fun hk => (h.leads (hm ▸ hk)).mono he rfl (.refl _) hahead hidle }

theorem Good.congr (h : Good cx o s) (hs : SameTables s s') : Good cx o s' := by
  have he := hs.evolves
  exact {
    toGoodModule := h.toGoodModule.evolve he hs.builder
    toGoodEntries := h.toGoodEntries.evolve he hs.entries
    toGoodExits := h.toGoodExits.evolve he hs.leaves hs.returnBlock
    toGoodPads := h.toGoodPads.evolve he hs.pads
    toGoodRegions := h.toGoodRegions.evolve he hs.regions
    toGoodFrame := h.toGoodFrame.evolve he hs.entries fun hi => .inl (by rwa [State.mod, hs.builder] at hi)
    toLedger := h.toLedger.retable he hs.builder (fun t => by rw [hs.sites])
      (fun hx => .inl (hs.leaves ▸ hx)) (fun hx => .inl (hs.returnBlock ▸ hx)) (fun hx _ => .inl hx) }

theorem Good.setDepth (h : Good cx o s) {d : Nat} (hd : o.depth ≤ max s.maxStack d) : Good cx { o with depth := d } s :=
  { h with toGoodFrame := h.toGoodFrame.evolve (.refl s) rfl .inl hd }

/-- A block that control goes to has to be scheduled in the end. -/
theorem Good.setAhead (h : Good cx o s) {A : List BlockId} (hA : ∀ x ∈ o.ahead, x ∈ A ∨ Led cx s x) :
    Good cx { o with ahead := A } s :=
  { h with leads := fun hk => ⟨(h.leads hk).1, fun hp => ((h.leads hk).2 hp).mono fun x hx => hx.elim (hA x) .inr⟩ }

theorem Good.perm {L : List BlockId} (h : Good cx o s) (hL : o.blocks.Perm L) :
    Good cx { o with blocks := L } s :=
  { h with
    distinct := hL.nodup_iff.1 h.distinct
    opened := fun b hb => h.opened b (hL.mem_iff.2 hb)
    closed := fun hk ht => (h.closed hk ht).imp_left hL.mem_iff.1
    pending := fun hp => ⟨fun hb => (h.pending hp).1 (hL.mem_iff.2 hb), (h.pending hp).2⟩
    leaf := fun hx => (h.leaf hx).imp_left hL.mem_iff.1
    returns := fun hx => (h.returns hx).imp_left hL.mem_iff.1 }

/-! ## Changes of the module -/

theorem GoodTables.setBuilder (h : GoodTables cx s) (hg : s.mod.Grows B.mod) : GoodTables cx { s with builder := B } := by
  have he : Evolves s { s with builder := B } := .of_module rfl hg
  exact {
    toGoodEntries := h.toGoodEntries.evolve he rfl
    toGoodExits := h.toGoodExits.evolve he rfl rfl
    toGoodPads := h.toGoodPads.evolve he rfl
    toGoodRegions := h.toGoodRegions.evolve he rfl }

/-- A fault of an old block at the end is one at the start. -/
theorem FaultAt.of_grows (hl : Lawful cx s b k) (hg : s.mod.Grows B.mod) {c : Int}
    (h : FaultAt cx { s with builder := B } k c) : FaultAt cx s k c := by
  unfold FaultAt at h ⊢
  split at h
  · obtain ⟨hp, v, i, hv, hi, hrest⟩ := h
    exact ⟨hp, v, i, hv, hl.inst_of_grows hg (Array.mem_of_back? hv) hi, hrest⟩
  · exact h
  · exact h

theorem Lawful.setEdges {preds succs : List BlockId} (h : Lawful cx s b { k with preds := preds, succs := succs }) :
    Lawful cx s b k :=
  ⟨h.sound.setEdges, h.fault, fun hv hi hop hsp => .mono (k := { k with preds := preds, succs := succs }) (.refl _) rfl rfl id
    (h.store hv hi hop hsp), h.nodup, h.divisor, h.split, h.caught, h.throws, h.code⟩

/-- What has to hold of a block that a change has made. -/
structure Fits (cx : Context) (o : Hand) (s s' : State) (b : BlockId) (k : Block) : Prop where
  law : Lawful cx s' b k
  join : ∀ {p t u}, k.term = .mayUnwind t u → s'.mod.Continues p t → (∃ k u', s.mod.block? b = some k ∧ k.term = .mayUnwind t u') ∨
    ∀ {q kq u'}, s.mod.block? q = some kq → kq.term ≠ .mayUnwind t u'
  closed : k.term = .none → b ∈ o.blocks
  unwinds : ∀ {v i}, k.insts.back? = some v → s'.mod.inst? v = some i → i.op.mayThrow = true →
    cx.table.isProtected i.bci = true → k.term = .none ∨ ∃ x u, k.term = .mayUnwind x u
  settled : ∀ {c}, FaultAt cx s' k c → Settled o s b c k.term.unwind
  padBlock : k.kind = .landingpad → b ∈ o.pads ∨ (k.start, b) ∈ s.pads
  ending : ∀ {v cs}, k.term = .switch v noBlock cs → b ∈ o.ending ∨ ∃ r ∈ s.regions, (b, v) ∈ r.ends
  leads : Leads cx o s' b k

/-- A change of the module that concerns one block. The hand `o'` takes the place of `o`. -/
structure Touches (cx : Context) (o o' : Hand) (s s' : State) (b : BlockId) : Prop where
  grows : s.mod.Grows s'.mod
  same : ∀ {c k}, c ≠ b → s'.mod.block? c = some k → ∃ preds succs, s.mod.block? c = some { k with preds := preds, succs := succs }
  error : s'.builder.error = none
  temps : s'.mod.temps.toList.Nodup
  labels : ∀ {c}, padLabel c ∈ s'.builder.requested → padLabel c ∈ s.builder.requested ∨
    ∃ k, s'.mod.block? b = some k ∧ k.kind = .landingpad ∧ k.start = c
  fits : ∀ {k}, s'.mod.block? b = some k → Fits cx o' s s' b k
  waits : ¬ Pending cx o b
  distinct : o'.blocks.Nodup
  blocks : ∀ {c}, c ≠ b → (c ∈ o'.blocks ↔ c ∈ o.blocks)
  opened : b ∈ o'.blocks → ∃ k, s'.mod.block? b = some k ∧ k.term = .none
  /-- A block that is closed leaves the regions that it has to leave. -/
  left : b ∈ o.blocks → b ∈ o'.blocks ∨ (∀ {h hs exit}, ((h :: hs, exit), b) ∈ s.leaves →
    Leaves cx s' exit h hs b) ∧ (s.returnBlock = some b → Returns cx s' b)
  faults : ∀ {k c}, s.mod.block? b = some k → FaultAt cx s k c → ∃ k', s'.mod.block? b = some k' ∧ FaultAt cx s' k' c
  sites : ∀ t ∈ o'.sites, t ∈ o.sites ∨ Known s t.owner ∧ t.block = b ∧ ∃ k, s'.mod.block? b = some k ∧ FaultAt cx s' k t.bci
  kept : ∀ t ∈ o.sites, t.block ≠ b → t ∈ o'.sites
  pads : ∀ c ∈ o.pads, c ∈ o'.pads := by exact fun _ => id
  begun : o'.begun = o.begun := by rfl
  ending : o'.ending = o.ending := by rfl
  depth : o'.depth = o.depth := by rfl
  ahead : o'.ahead = o.ahead := by rfl
  idle : o'.idle = o.idle := by rfl
  slots : ∀ {v i}, s'.mod.inst? v = some i → s.mod.inst? v = some i ∨ (i.Accesses → InFrame o.depth s i.slot)

namespace Touches

variable {o' : Hand} (ht : Touches cx o o' s { s with builder := B } b)

include ht

theorem evolves : Evolves s { s with builder := B } := .of_module rfl ht.grows

/-- A block is the one that the change concerns, or it was there before. -/
theorem cases {c : BlockId} (hc : B.mod.block? c = some k) : c = b ∧ Fits cx o' s { s with builder := B } b k ∨
    c ≠ b ∧ ∃ preds succs, s.mod.block? c = some { k with preds := preds, succs := succs } := by
  rcases eq_or_ne c b with rfl | hne
  · exact .inl ⟨rfl, ht.fits hc⟩
  · exact .inr ⟨hne, ht.same hne hc⟩

theorem exists_of_ne {c : BlockId} (hne : c ≠ b) (hc : s.mod.block? c = some k) :
    ∃ k', B.mod.block? c = some k' ∧ ∃ preds succs, k = { k' with preds := preds, succs := succs } := by
  obtain ⟨k', hk', -⟩ := ht.grows.block hc
  obtain ⟨preds, succs, hk⟩ := ht.same hne hk'
  exact ⟨k', hk', preds, succs, Option.mem_unique hc hk⟩

theorem goodModule (h : GoodModule cx s) : GoodModule cx { s with builder := B } := by
  have hkinds {c : BlockId} {k : Block} (hc : s.mod.block? c = some k) :
      ∃ k', B.mod.block? c = some k' ∧ k'.kind = k.kind ∧ k'.start = k.start := by
    obtain ⟨k', hk', hkk⟩ := ht.grows.block hc
    exact ⟨k', hk', hkk.kind, hkk.start⟩
  -- an old block is continued by an old one
  have hcont {p t u : BlockId} {k : Block} (hk : s.mod.block? p = some k) (htm : k.term = .mayUnwind t u)
      (hc : B.mod.Continues p t) : s.mod.Continues p t := by
    have hterm := (h.block hk).sound.term
    rw [htm] at hterm
    exact hterm.1.resolve_left fun htar => (htar.mono ht.grows).not_continues hc
  exact {
    error := ht.error
    header := ht.grows.header.trans h.header
    block := fun hc => by
      rcases ht.cases hc with ⟨rfl, hf⟩ | ⟨-, _, _, hc⟩
      · exact hf.law
      · exact .setEdges ((h.block hc).mono ht.evolves)
    joined := fun hp hq htm htm' hc => by
      rcases ht.cases hp with ⟨rfl, hf⟩ | ⟨-, _, _, hp⟩ <;> rcases ht.cases hq with ⟨rfl, hf'⟩ | ⟨-, _, _, hq⟩
      · rfl
      · rcases hf.join htm hc with ⟨k, u, hk, hk'⟩ | hno
        · exact h.joined hk hq hk' htm' (hcont hk hk' hc)
        · exact (hno hq htm').elim
      · rcases hf'.join htm' hc with ⟨k, u, hk, hk'⟩ | hno
        · exact h.joined hp hk htm hk' (hcont hp htm hc)
        · exact (hno hp htm).elim
      · exact h.joined hp hq htm htm' (hcont hp htm hc)
    entry := by
      obtain ⟨k, hk, hkind⟩ := h.entry
      obtain ⟨k', hk', hkk, -⟩ := hkinds hk
      exact ⟨k', hk', hkk.trans hkind⟩
    layout := fun hn => by
      obtain ⟨k, hk, hkind, hstart⟩ := h.layout hn
      obtain ⟨k', hk', hkk, hss⟩ := hkinds hk
      exact ⟨k', hk', hkk.trans hkind, hss.trans hstart⟩
    temps := ht.temps
    labels := fun hc => by
      rcases ht.labels hc with hc | ⟨k, hk, hrest⟩
      · obtain ⟨p, k, hk, hkind, hstart⟩ := h.labels hc
        obtain ⟨k', hk', hkk, hss⟩ := hkinds hk
        exact ⟨p, k', hk', hkk.trans hkind, hss.trans hstart⟩
      · exact ⟨b, k, hk, hrest⟩ }

theorem siteOk (h : Ledger cx o s) {t : Site} (htm : t ∈ s.sites ++ o.sites) : Known { s with builder := B } t.owner ∧
    ∃ k, B.mod.block? t.block = some k ∧ FaultAt cx { s with builder := B } k t.bci := by
  obtain ⟨hown, k, hk, hf⟩ := h.sites t htm
  refine ⟨hown.mono ht.evolves, ?_⟩
  rcases eq_or_ne t.block b with hb | hne
  · rw [hb] at hk ⊢
    exact ht.faults hk hf
  · obtain ⟨k', hk', _, _, rfl⟩ := ht.exists_of_ne hne hk
    exact ⟨k', hk', hf.mono ht.evolves⟩

theorem ledger (h : Good cx o s) : Ledger cx o' { s with builder := B } := by
  have he := ht.evolves
  have hpending {c : BlockId} : Pending cx o' c ↔ Pending cx o c := by rw [Pending, Pending, ht.begun]
  have hwaits {c : BlockId} (hp : Pending cx o c) : c ≠ b := fun hcb => ht.waits (hcb ▸ hp)
  exact {
    distinct := ht.distinct
    opened := fun c hc => by
      rcases eq_or_ne c b with rfl | hne
      · exact ht.opened hc
      · obtain ⟨k, hk, htm⟩ := h.opened c ((ht.blocks hne).1 hc)
        obtain ⟨k', hk', _, _, rfl⟩ := ht.exists_of_ne hne hk
        exact ⟨k', hk', htm⟩
    closed := fun hc htm => by
      rcases ht.cases hc with ⟨rfl, hf⟩ | ⟨hne, _, _, hc⟩
      · exact .inl (hf.closed htm)
      · exact (h.closed hc htm).imp (ht.blocks hne).2 hpending.2
    pending := fun hp => by
      have hp := hpending.1 hp
      obtain ⟨hno, k, hk, hrest⟩ := h.pending hp
      obtain ⟨k', hk', _, _, rfl⟩ := ht.exists_of_ne (hwaits hp) hk
      exact ⟨mt (ht.blocks (hwaits hp)).1 hno, k', hk', hrest⟩
    unwinds := fun hc hv hi hop hp => by
      rcases ht.cases hc with ⟨rfl, hf⟩ | ⟨-, _, _, hc⟩
      · exact hf.unwinds hv hi hop hp
      · have hold := h.unwinds hc hv ((h.block hc).inst_of_grows ht.grows (Array.mem_of_back? hv) hi)
        exact hold hop hp
    sites := fun t htm => by
      rcases mem_append.1 htm with htm | htm
      · exact ht.siteOk h.toLedger (mem_append_left _ htm)
      · rcases ht.sites t htm with htm | ⟨hown, rfl, hf⟩
        · exact ht.siteOk h.toLedger (mem_append_right _ htm)
        · exact ⟨hown.mono he, hf⟩
    settled := fun hc hf => by
      rcases ht.cases hc with ⟨rfl, hfit⟩ | ⟨hne, _, _, hc⟩
      · exact hfit.settled hf
      · refine (h.settled hc (hf.of_grows (h.block hc) ht.grows)).imp_left fun ⟨hu, t, htm, htb, htc⟩ => ⟨hu, t, ?_, htb, htc⟩
        exact mem_append.2 ((mem_append.1 htm).imp_right fun htm => ht.kept t htm (htb ▸ hne))
    leaf := fun {_ _ _ c} hx => by
      rcases h.leaf hx with hc | hl
      · rcases eq_or_ne c b with rfl | hne
        · exact (ht.left hc).imp_right fun hleft => hleft.1 hx
        · exact .inl ((ht.blocks hne).2 hc)
      · exact .inr (hl.mono he)
    returns := fun {c} hx => by
      rcases h.returns hx with hc | hret
      · rcases eq_or_ne c b with rfl | hne
        · exact (ht.left hc).imp_right fun hleft => hleft.2 hx
        · exact .inl ((ht.blocks hne).2 hc)
      · exact .inr (hret.mono he)
    padBlock := fun hc hkind => by
      rcases ht.cases hc with ⟨rfl, hf⟩ | ⟨-, _, _, hc⟩
      · exact hf.padBlock hkind
      · exact (h.padBlock hc hkind).imp_left (ht.pads _)
    ending := fun hc hsw => by
      rcases ht.cases hc with ⟨rfl, hf⟩ | ⟨-, _, _, hc⟩
      · exact hf.ending hsw
      · exact ht.ending ▸ h.ending hc hsw
    leads := fun hc => by
      rcases ht.cases hc with ⟨rfl, hf⟩ | ⟨-, _, _, hc⟩
      · exact hf.leads
      · exact (h.leads hc).mono he rfl (.refl _) ht.ahead ht.idle }

end Touches

/-- **The invariant is kept by a change that accounts for the block that it concerns.** -/
theorem Good.touch {o' : Hand} (h : Good cx o s) (ht : Touches cx o o' s { s with builder := B } b) :
    Good cx o' { s with builder := B } where
  toGoodModule := ht.goodModule h.toGoodModule
  toGoodTables := h.toGoodTables.setBuilder ht.grows
  toGoodFrame := ht.depth ▸ h.toGoodFrame.evolve ht.evolves rfl ht.slots
  toLedger := ht.ledger h

/-- A change of the module that leaves all blocks alone, but for their edges. -/
theorem Good.sameBlocks (h : Good cx o s) (hg : s.mod.Grows B.mod) (herr : B.error = none)
    (hreq : B.requested = s.builder.requested) (htemps : B.mod.temps.toList.Nodup)
    (hb : ∀ {c k}, B.mod.block? c = some k → ∃ preds succs, s.mod.block? c = some { k with preds := preds, succs := succs })
    (hi : B.mod.insts = s.mod.insts) :
    Good cx o { s with builder := B } := by
  have hno {k : Block} : s.mod.block? noBlock ≠ some k := fun hk => by cases (block?_lt hk).1
  exact h.touch (b := noBlock) {
    grows := hg
    same := fun _ => hb
    error := herr
    temps := htemps
    labels := fun hc => .inl (hreq ▸ hc)
    fits := fun hk => absurd (hb hk).choose_spec.choose_spec hno
    waits := fun hp => hno (h.pending hp).2.choose_spec.1
    distinct := h.distinct
    blocks := fun _ => .rfl
    opened := fun hc => absurd (h.opened _ hc).choose_spec.1 hno
    left := .inl
    faults := fun hk => absurd hk hno
    sites := fun _ => .inl
    kept := fun _ ht _ => ht
    slots := fun hv => .inl (by rwa [inst?, hi] at hv) }

/-- A new block is open, and a new landingpad is under construction. -/
theorem Good.newBlock (h : Good cx o s) (label : Text) (bci : Int) (kind : BlockKind) {P : List BlockId}
    (hP : ∀ b ∈ o.pads, b ∈ P) (hpad : kind = .landingpad → (s.mod.blocks.size : Int) ∈ P)
    (hlabel : ∀ {c}, label = padLabel c → kind = .landingpad ∧ bci = c) :
    Good cx { o with blocks := s.mod.blocks.size :: o.blocks, pads := P }
      { s with builder := (s.builder.newBlock label bci kind).2 } := by
  have hb := s.builder.block?_newBlock label bci kind
  have hself : (s.builder.newBlock label bci kind).2.mod.block? s.mod.blocks.size =
      some (s.builder.blankBlock label bci kind) := by rw [hb, if_pos rfl]
  have hno {k : Block} : s.mod.block? s.mod.blocks.size ≠ some k := fun hk => ne_size hk rfl
  have hfresh : (s.mod.blocks.size : Int) ∉ o.blocks := fun hm => hno (h.opened _ hm).choose_spec.1
  refine h.touch (b := s.mod.blocks.size) {
    grows := .newBlock s.builder label bci kind
    same := fun hne hk => ⟨_, _, ((hb _).trans (if_neg hne)).symm.trans hk⟩
    error := h.error
    temps := h.temps
    labels := fun hc => ?_
    fits := fun hk => ?_
    waits := fun hp => hno (h.pending hp).2.choose_spec.1
    distinct := nodup_cons.2 ⟨hfresh, h.distinct⟩
    blocks := fun hne => by rw [mem_cons, or_iff_right hne]
    opened := fun _ => ⟨_, hself, rfl⟩
    left := fun hm => absurd hm hfresh
    faults := fun hk => absurd hk hno
    sites := fun _ => .inl
    kept := fun _ ht _ => ht
    pads := hP
    slots := .inl }
  · rcases mem_cons.1 hc with hc | hc
    · obtain ⟨rfl, rfl⟩ := hlabel hc.symm
      exact .inr ⟨_, hself, rfl, rfl⟩
    · exact .inl hc
  obtain rfl := mem_unique hself hk
  exact {
    law := {
      sound := ⟨rfl, fun hv => by simp [blankBlock] at hv, trivial, fun hd => by cases hd⟩
      fault := fun hv => by simp [blankBlock] at hv
      store := fun hv => by simp [blankBlock] at hv
      nodup := nodup_nil
      divisor := fun hv => by simp [blankBlock] at hv
      split := fun ht => by cases ht
      caught := absurd rfl
      throws := fun ht => by cases ht
      code := fun _ ht => absurd rfl ht }
    join := fun ht => by cases ht
    closed := fun _ => mem_cons_self
    unwinds := fun _ _ _ _ => .inl rfl
    settled := fun hf => hf.elim
    padBlock := fun hkind => .inl (hpad hkind)
    ending := fun ht => by cases ht
    leads := .of_none rfl }

/-- The state with one block changed. -/
abbrev State.change (s : State) (b : BlockId) (f : Block → Block) : State :=
  { s with builder := { s.builder with mod := s.builder.mod.modifyBlock b f } }

/-- The state in which a block has a terminator. -/
abbrev State.ended (s : State) (b : BlockId) (t : Terminator) : State := s.change b fun k => { k with term := t }

theorem block?_emit_self (hk : s.mod.block? b = some k) (i : Inst) :
    (s.builder.emit b i).2.mod.block? b = some { k with insts := k.insts.push s.mod.insts.size } := by
  rw [block?_emit, if_pos rfl]
  exact congrArg (Option.map _) hk

theorem inst?_emit_self (s : State) (b : BlockId) (i : Inst) :
    (s.builder.emit b i).2.mod.inst? s.mod.insts.size = some { i with id := s.mod.insts.size, block := b } := by
  rw [inst?_emit, if_pos rfl]

theorem block?_change_self (hk : s.mod.block? b = some k) (f : Block → Block) :
    (s.change b f).mod.block? b = some (f k) := by
  rw [State.mod, block?_modifyBlock, if_pos rfl]
  exact congrArg (Option.map _) hk

theorem faultAt_change {f : Block → Block} {c : Int} : FaultAt cx (s.change b f) k c ↔ FaultAt cx s k c := by
  unfold FaultAt
  simp only [State.mod, inst?_modifyBlock]

/-- What has to hold of an instruction that is appended to a block. -/
structure Emittable (cx : Context) (o : Hand) (s : State) (b : BlockId) (k : Block) (i : Inst) : Prop where
  args : ∀ a ∈ i.args, s.mod.Avail b a
  landingpad : i.op = .landingpad → k.insts = #[] ∧ k.kind = .landingpad
  /-- The last instruction so far does not end its block. -/
  quiet : ∀ {v j}, k.insts.back? = some v → s.mod.inst? v = some j → j.op.mayThrow = true →
    cx.table.isProtected j.bci = false
  store : i.op = .storeSlot → i.slot.space = .temp → StoreOk cx s b k i.slot
  divisor : Divides i → ∃ a d, i.args = [a, d] ∧ NonZero s.mod b k.insts.toList d
  slot : i.Accesses → InFrame o.depth s i.slot

theorem Module.Avail.inst {m : Module} {v : ValueId} (h : m.Avail b v)
    (hb : ∀ {b k}, m.block? b = some k → m.SoundBlock b k) : ∃ i, m.inst? v = some i := by
  induction h with
  | own hk hv =>
    obtain ⟨before, after, heq⟩ := append_of_mem (Array.mem_toList_iff.2 hv)
    obtain ⟨i, hi, -⟩ := (hb hk).inst heq
    exact ⟨i, hi⟩
  | above _ _ _ _ _ ih => exact ih

theorem append_singleton_cases {α : Type} {l before after : List α} {x v : α}
    (h : l ++ [x] = before ++ v :: after) :
    (∃ after', after = after' ++ [x] ∧ l = before ++ v :: after') ∨ after = [] ∧ v = x ∧ l = before := by
  rcases eq_nil_or_concat after with rfl | ⟨after', y, rfl⟩
  · obtain ⟨h1, h2⟩ := append_inj' h rfl
    exact .inr ⟨rfl, (List.cons.inj h2).1.symm, h1⟩
  · have h' : l ++ [x] = (before ++ v :: after') ++ [y] := by simpa using h
    obtain ⟨h1, h2⟩ := append_inj' h' rfl
    exact .inl ⟨after', by rw [(List.cons.inj h2).1, concat_eq_append], h1⟩

theorem Lawful.emit (h : Lawful cx s b k) (hk : s.mod.block? b = some k) (ht : k.term = .none)
    {i : Inst} (hi : Emittable cx o s b k i) :
    Lawful cx { s with builder := (s.builder.emit b i).2 } b
      { k with insts := k.insts.push s.mod.insts.size } := by
  have hg := Grows.emit hk ht i
  have he : Evolves s { s with builder := (s.builder.emit b i).2 } := .of_module rfl hg
  have hnew := inst?_emit_self s b i
  have hl := h.mono he
  refine ⟨⟨h.sound.id, fun {before v after} hv => ?_, ?_, fun {d} hd => ?_⟩, ?_, ?_, ?_, fun {before v after j} hv hj hdiv => ?_,
    fun hm => ?_, absurd (congrArg Terminator.unwind ht), h.throws, fun _ hne => absurd ht hne⟩
  · rw [Array.toList_push] at hv
    rcases append_singleton_cases hv with ⟨after', rfl, hv'⟩ | ⟨rfl, rfl, rfl⟩
    · obtain ⟨j, hj, hs⟩ := hl.sound.inst hv'
      exact ⟨j, hj, hs.id, hs.block, hs.args, hs.landingpad⟩
    refine ⟨_, hnew, rfl, rfl, fun a ha => ?_, fun hop => ?_⟩
    · exact ((hi.args a ha).own_or_above hk).imp_right (·.mono hg)
    · obtain ⟨hnil, hkind⟩ := hi.landingpad hop
      exact ⟨by rw [hnil], hkind⟩
  · rw [ht]
    trivial
  · obtain ⟨⟨v, j, hv, hj⟩, hc⟩ := hl.sound.pad hd
    refine ⟨⟨v, j, ?_, hj⟩, hc⟩
    obtain ⟨hlt, -⟩ := Array.getElem?_eq_some_iff.1 hv
    rw [Array.getElem?_push_lt hlt, ← Array.getElem?_eq_getElem hlt]
    exact hv
  · intro before v after j hv hj hop hprot
    rw [Array.toList_push] at hv
    rcases append_singleton_cases hv with ⟨after', rfl, hv'⟩ | ⟨rfl, -, -⟩
    · -- the old last instruction would have ended the block
      obtain ⟨j', hj', -⟩ := h.sound.inst hv'
      obtain rfl := mem_unique (hg.inst hj') hj
      obtain rfl := h.fault hv' hj' hop hprot
      have hback : k.insts.back? = some v := by
        rw [← Array.getLast?_toList, hv']
        simp
      rw [hi.quiet hback hj' hop] at hprot
      cases hprot
    · rfl
  · intro v j hv hj hop hsp
    rcases Array.mem_push.1 hv with hv | rfl
    · exact StoreOk.mono (k := k) (.refl _) rfl rfl id (hl.store hv hj hop hsp)
    · obtain rfl := mem_unique hnew hj
      exact StoreOk.mono (k := k) he rfl rfl id (hi.store hop hsp)
  · rw [Array.toList_push]
    refine nodup_append.2 ⟨h.nodup, nodup_singleton _, fun v hv w hw heq => ?_⟩
    obtain rfl := mem_singleton.1 hw
    obtain ⟨j, hj⟩ := h.inst_of_mem (Array.mem_toList_iff.1 hv)
    have hlt : v < (s.mod.insts.size : Int) := (inst?_lt hj).2
    exact absurd heq (Int.ne_of_lt hlt)
  · rw [Array.toList_push] at hv
    rcases append_singleton_cases hv with ⟨after', rfl, hv'⟩ | ⟨rfl, rfl, rfl⟩
    · exact hl.divisor hv' hj hdiv
    · obtain rfl := mem_unique hnew hj
      obtain ⟨a, d, hargs, hd⟩ := hi.divisor hdiv
      exact ⟨a, d, hargs, hd.mono hg⟩
  · cases ht.symm.trans hm

/-- **An instruction may be appended to an open block.** -/
theorem Good.emit (h : Good cx o s) (hb : b ∈ o.blocks) (hk : s.mod.block? b = some k)
    {i : Inst} (hi : Emittable cx o s b k i) :
    Good cx o { s with builder := (s.builder.emit b i).2 } := by
  obtain ⟨k0, hk0, ht⟩ := h.opened b hb
  obtain rfl := mem_unique hk hk0
  have hr := Replaces.emit hk ht i
  refine h.touch (b := b) {
    grows := hr.grows
    same := fun hne hk => ⟨_, _, (hr.same hne).symm.trans hk⟩
    error := error_emit h.error hk ht fun a ha => Module.Avail.inst (hi.args a ha) fun hk => (h.block hk).sound
    temps := (temps_emit ..).symm ▸ h.temps
    labels := .inl
    fits := fun hk' => ?_
    waits := fun hp => (h.pending hp).1 hb
    distinct := h.distinct
    blocks := fun _ => .rfl
    opened := fun _ => ⟨_, hr.new, ht⟩
    left := .inl
    faults := fun hk' hf => absurd (mem_unique hk hk' ▸ ht) hf.ne_none
    sites := fun _ => .inl
    kept := fun _ ht _ => ht
    slots := fun {v j} hj => by
      rw [inst?_emit] at hj
      split at hj
      · obtain rfl := Option.some.inj hj
        exact .inr hi.slot
      · exact .inl hj }
  obtain rfl := mem_unique hr.new hk'
  exact {
    law := (h.block hk).emit hk ht hi
    join := fun hm => by cases ht.symm.trans hm
    closed := fun _ => hb
    unwinds := fun _ _ _ _ => .inl ht
    settled := fun hf => absurd ht hf.ne_none
    padBlock := fun hkind => (h.padBlock hk hkind :)
    ending := fun hsw => by cases ht.symm.trans hsw
    leads := .of_none ht }

/-- What has to hold of a terminator that closes a block, whatever the block is for. -/
structure Terminates (cx : Context) (o : Hand) (s : State) (b : BlockId) (k : Block) (t : Terminator) : Prop where
  ne : t ≠ .none
  term : s.mod.SoundTerm b k t
  join : ∀ {x u q kq u' p}, t = .mayUnwind x u → s.mod.block? q = some kq → kq.term = .mayUnwind x u' →
    ¬ s.mod.Continues p x
  unwinds : ∀ {v i}, k.insts.back? = some v → s.mod.inst? v = some i → i.op.mayThrow = true →
    cx.table.isProtected i.bci = true → ∃ x u, t = .mayUnwind x u
  split : ∀ {x u}, t = .mayUnwind x u → ∃ c, FaultAt cx s { k with term := t } c
  caught : t.unwind = noBlock
  ending : ∀ {v cs}, t = .switch v noBlock cs → b ∈ o.ending

/-- What has to hold of a terminator that closes a block. The sites `S` take the place of those at
hand. -/
structure Closable (cx : Context) (o : Hand) (S : List Site) (s : State) (b : BlockId) (k : Block)
    (t : Terminator) : Prop extends Terminates cx o s b k t where
  code : holdsCode k.kind = true → CodeTerm cx s b k.start k.insts.back? t
  /-- A block that selects an exit of a region enters the region. -/
  select : ∀ {v i n h}, v ∈ k.insts → s.mod.inst? v = some i → i.op = .storeSlot → i.slot = ⟨.temp, (n : Nat)⟩ →
    s.mod.temps[n]? = some (selectorName h) → (k.kind = .leave ∨ k.kind = .dispatch) →
    ∃ next, Enters cx (s.ended b t) k.kind b h next
  throws : t.isThrow = true → holdsCode k.kind = true
  kept : ∀ x ∈ o.sites, x ∈ S
  sites : ∀ x ∈ S, x ∈ o.sites ∨ Known s x.owner ∧ x.block = b ∧ FaultAt cx s { k with term := t } x.bci
  settled : ∀ {c}, FaultAt cx s { k with term := t } c → Settled { o with sites := S } s b c t.unwind
  leaf : ∀ {h hs exit}, ((h :: hs, exit), b) ∈ s.leaves → Leaves cx (s.ended b t) exit h hs b
  returns : s.returnBlock = some b → Returns cx (s.ended b t) b
  leads : Leads cx o s b { k with term := t }

theorem Lawful.setTerm (h : Lawful cx s b k) {t : Terminator}
    (hg : s.mod.Grows (s.ended b t).mod) (hc : Closable cx o S s b k t) :
    Lawful cx (s.ended b t) b { k with term := t } := by
  have he : Evolves s (s.ended b t) := .of_module rfl hg
  have hl := h.mono he
  refine ⟨⟨hl.sound.id, fun hv => ?_, ?_, hl.sound.pad⟩, hl.fault, fun {v i} hv hi hop hsp => ?_, hl.nodup, hl.divisor,
    fun ht => (hc.split ht).imp fun _ hf => hf.mono he, absurd hc.caught, hc.throws,
    fun hk _ => ?_⟩
  · obtain ⟨j, hj, hs⟩ := hl.sound.inst hv
    exact ⟨j, hj, hs.id, hs.block, hs.args, hs.landingpad⟩
  · exact (hc.term.mono hg).congr rfl
  · have hi0 : s.mod.inst? v = some i := by rwa [inst?_modifyBlock] at hi
    cases h.store hv hi0 hop hsp with
    | selector hs hn hkind _ =>
      exact .selector hs (hg.temp hn) hkind (.inr (hc.select hv hi0 hop hs hn hkind))
    | caught hs hn hkind hstart => exact .caught hs (hg.temp hn) hkind hstart
    | other hs hn hsel hexc => exact .other hs (hg.temp hn) hsel hexc
  · exact (hc.code hk).mono he (.refl _)

/-- **An open block may be closed.** -/
theorem Good.close (h : Good cx o s) {O : List BlockId} (ho : o.blocks.Perm (b :: O))
    (hk : s.mod.block? b = some k) {t : Terminator} (hc : Closable cx o S s b k t) :
    Good cx { o with blocks := O, sites := S } (s.ended b t) := by
  have hb : b ∈ o.blocks := ho.mem_iff.2 mem_cons_self
  obtain ⟨k0, hk0, ht⟩ := h.opened b hb
  obtain rfl := mem_unique hk hk0
  obtain ⟨hbO, hO⟩ := nodup_cons.1 (ho.nodup_iff.1 h.distinct)
  have hr : s.mod.Replaces (s.ended b t).mod b k { k with term := t } :=
    .modifyBlock hk (.setTerm (absurd ht))
  have he : Evolves s (s.ended b t) := .of_module rfl hr.grows
  refine h.touch (b := b) {
    grows := hr.grows
    same := fun hne hk => ⟨_, _, (hr.same hne).symm.trans hk⟩
    error := h.error
    temps := (temps_modifyBlock ..).symm ▸ h.temps
    labels := .inl
    fits := fun hk' => ?_
    waits := fun hp => (h.pending hp).1 hb
    distinct := hO
    blocks := fun hne => by rw [ho.mem_iff, mem_cons, or_iff_right hne]
    opened := fun hm => absurd hm hbO
    left := fun _ => .inr ⟨hc.leaf, hc.returns⟩
    faults := fun hk' hf => absurd (mem_unique hk hk' ▸ ht) hf.ne_none
    sites := fun x hx => (hc.sites x hx).imp_right fun ⟨hown, hx, hf⟩ => ⟨hown, hx, _, hr.new, hf.mono he⟩
    kept := fun x hx _ => hc.kept x hx
    slots := fun hv => .inl (inst?_modifyBlock .. ▸ hv) }
  obtain rfl := mem_unique hr.new hk'
  exact {
    law := (h.block hk).setTerm hr.grows hc
    join := fun {p x u} hx hcont => .inr fun {q kq u'} hq hqt => by
      refine hc.join (p := p) hx hq hqt ?_
      obtain ⟨hlt, kx, hkx, hkind⟩ := hcont
      rcases hr.new_or_old hkx with ⟨rfl, rfl⟩ | ⟨-, hkx⟩
      · exact ⟨hlt, k, hk, hkind⟩
      · exact ⟨hlt, kx, hkx, hkind⟩
    closed := fun ht => absurd ht hc.ne
    unwinds := fun hv hj hop hp => .inr (hc.unwinds hv (inst?_modifyBlock .. ▸ hj) hop hp)
    settled := fun hf => hc.settled (faultAt_change.1 hf)
    padBlock := fun hkind => (h.padBlock hk hkind :)
    ending := fun hsw => .inl (hc.ending hsw)
    leads := hc.leads.mono he rfl (.refl _) rfl rfl }

/-! ## Changes of closed blocks -/

/-- What has to hold of the change of a closed block. The sites `S` take the place of those at hand. -/
structure Amendable (cx : Context) (o : Hand) (S : List Site) (s : State) (b : BlockId) (k k' : Block) :
    Prop where
  closed : k.term ≠ .none
  grows : k.Grows k'
  term : s.mod.SoundTerm b k k'.term
  pad : ∀ {d}, k'.pad = some d →
    (∃ v i, k.insts[0]? = some v ∧ s.mod.inst? v = some i ∧ i.op = .landingpad) ∧
      ∀ c ∈ d.clauses, s.mod.Target c.target
  sites : ∀ t ∈ S, t ∈ o.sites
  kept : ∀ t ∈ o.sites, t.block ≠ b → t ∈ S
  settled : ∀ {c}, FaultAt cx s k c → Settled { o with sites := S } s b c k'.term.unwind
  caught : k'.term.unwind ≠ noBlock → ∃ c, FaultAt cx s k c

theorem Lawful.amend (h : Lawful cx s b k) {f : Block → Block}
    (hg : s.mod.Grows (s.change b f).mod) (ha : Amendable cx o S s b k (f k)) :
    Lawful cx (s.change b f) b (f k) := by
  have he : Evolves s (s.change b f) := .of_module rfl hg
  have hl := h.mono he
  obtain ⟨hi, hc⟩ := ha.grows.closed ha.closed
  refine ⟨⟨ha.grows.id.trans hl.sound.id, fun hv => ?_, ?_, fun hd => ?_⟩, ?_, fun hv hj hop hsp => ?_,
    ?_, ?_, fun ht => ?_, fun hu => ?_, fun ht => ?_, ?_⟩
  · rw [hi] at hv
    obtain ⟨j, hj, hs⟩ := hl.sound.inst hv
    exact ⟨j, hj, hs.id, hs.block, hs.args, fun hop => ⟨(hs.landingpad hop).1,
      ha.grows.kind.trans (hs.landingpad hop).2⟩⟩
  · exact (ha.term.mono hg).congr hi
  · obtain ⟨⟨v, j, hv, hj, hop⟩, hcl⟩ := ha.pad hd
    exact ⟨⟨v, j, hi ▸ hv, hg.inst hj, hop⟩, fun c hm => (hcl c hm).mono hg⟩
  · rw [hi]
    exact hl.fault
  · exact (hl.store (hi ▸ hv) hj hop hsp).mono (.refl _) ha.grows.kind ha.grows.start
      fun hn => absurd hn ha.closed
  · rw [hi]
    exact hl.nodup
  · rw [hi]
    exact hl.divisor
  · obtain ⟨u, hu⟩ := Terminator.Completes.of_mayUnwind (ht ▸ hc)
    exact (hl.split hu).imp fun _ hf => (faultAt_amend ha.grows ha.closed).2 hf
  · exact (ha.caught hu).imp fun _ hf => ((faultAt_amend ha.grows ha.closed).2 hf).mono he
  · rw [ha.grows.kind]
    exact h.throws (hc.isThrow ▸ ht)
  · intro hcode hne
    rw [ha.grows.kind] at hcode
    rw [ha.grows.start, hi]
    exact (h.code hcode ha.closed).mono he hc

/-- **A closed block may be completed.** -/
theorem Good.amend (h : Good cx o s) (hk : s.mod.block? b = some k) {f : Block → Block}
    (ha : Amendable cx o S s b k (f k)) : Good cx { o with sites := S } (s.change b f) := by
  have hr : s.mod.Replaces (s.change b f).mod b k (f k) := .modifyBlock hk ha.grows
  have he : Evolves s (s.change b f) := .of_module rfl hr.grows
  obtain ⟨hi, hc⟩ := ha.grows.closed ha.closed
  have hopen {k0 : Block} (hk0 : s.mod.block? b = some k0) : k0.term ≠ .none := mem_unique hk hk0 ▸ ha.closed
  have hno : b ∉ o.blocks := fun hm => by
    obtain ⟨k0, hk0, ht⟩ := h.opened b hm
    exact hopen hk0 ht
  refine h.touch (b := b) {
    grows := hr.grows
    same := fun hne hk => ⟨_, _, (hr.same hne).symm.trans hk⟩
    error := h.error
    temps := (temps_modifyBlock ..).symm ▸ h.temps
    labels := .inl
    fits := fun hk' => ?_
    waits := fun hp => by
      obtain ⟨-, k0, hk0, ht, -⟩ := h.pending hp
      exact hopen hk0 ht
    distinct := h.distinct
    blocks := fun _ => .rfl
    opened := fun hm => absurd hm hno
    left := .inl
    faults := fun hk' hf => ?_
    sites := fun t ht => .inl (ha.sites t ht)
    kept := ha.kept
    slots := fun hv => .inl (inst?_modifyBlock .. ▸ hv) }
  · obtain rfl := mem_unique hr.new hk'
    exact {
      law := (h.block hk).amend hr.grows ha
      join := fun ht _ => by
        obtain ⟨u, hu⟩ := Terminator.Completes.of_mayUnwind (ht ▸ hc)
        exact .inl ⟨k, u, hk, hu⟩
      closed := fun ht => absurd ht (hc.ne_none ha.closed)
      unwinds := fun hv hj hop hp => by
        rw [inst?_modifyBlock] at hj
        obtain ⟨x, u, ht⟩ := (h.unwinds hk (hi ▸ hv) hj hop hp).resolve_left ha.closed
        rw [ht] at hc
        obtain ⟨u', ht'⟩ := hc.mayUnwind
        exact .inr ⟨x, u', ht'⟩
      settled := fun hf => ha.settled ((faultAt_amend ha.grows ha.closed).1 (faultAt_change.1 hf))
      padBlock := by
        rw [ha.grows.kind, ha.grows.start]
        exact h.padBlock hk
      ending := fun hsw => by
        obtain ⟨cs', hk'⟩ := Terminator.Completes.of_switch (hsw ▸ hc)
        exact h.ending hk hk'
      leads := (h.leads hk).mono he ha.grows.kind hc rfl rfl }
  · obtain rfl := mem_unique hk hk'
    exact ⟨f k, hr.new, ((faultAt_amend ha.grows ha.closed).2 hf).mono he⟩

end Bytelift.Lift
