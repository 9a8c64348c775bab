import Bytelift.Proofs.Lift.Steps

/-!
# Changes of the tables that keep the invariant

One lemma for each table of a lifting: a block is scheduled or taken up, a region gets an exit or an
end, a site waits or is taken up, and a leave block, the return block or a landingpad is entered. None
of them changes the module.
-/

namespace Bytelift.Lift

open Ir List

variable {cx : Context} {o : Hand} {s s' : State} {b : BlockId} {k : Block} {B : CodeBlock} {handler : Int}

/-! ## Scheduled blocks -/

/-- The IR block of a bytecode block stands at the place of the bytecode block, behind the entry. -/
theorem Context.blockOf_spec (hB : B ∈ cx.partition.blocks) :
    ∃ (n : Nat) (B' : CodeBlock), cx.partition.blocks[n]? = some B' ∧ B'.start = B.start ∧
      cx.blockOf B.start = (n : Int) + 1 := by
  unfold Context.blockOf
  cases hf : cx.partition.blocks.findIdx? fun b => (b.start : Int) = B.start with
  | none =>
    have hno := findIdx?_eq_none_iff.1 hf B hB
    simp at hno
  | some n =>
    obtain ⟨hn, hp, -⟩ := findIdx?_eq_some_iff_getElem.1 hf
    exact ⟨n, _, getElem?_eq_getElem hn, Int.ofNat.inj (of_decide_eq_true hp), rfl⟩

theorem Context.blockOf_injective {B' : CodeBlock} (hB : B ∈ cx.partition.blocks)
    (hB' : B' ∈ cx.partition.blocks) (h : cx.blockOf B.start = cx.blockOf B'.start) : B.start = B'.start := by
  obtain ⟨n, C, hC, hs, hb⟩ := cx.blockOf_spec hB
  obtain ⟨n', C', hC', hs', hb'⟩ := cx.blockOf_spec hB'
  obtain rfl : n = n' := by lia
  obtain rfl := Option.mem_unique hC hC'
  exact hs.symm.trans hs'

theorem GoodModule.blockOf (h : GoodModule cx s) (hB : B ∈ cx.partition.blocks) :
    ∃ k, s.mod.block? (cx.blockOf B.start) = some k ∧ k.kind = .code ∧ k.start = B.start := by
  obtain ⟨n, B', hn, hs, hb⟩ := cx.blockOf_spec hB
  obtain ⟨k, hk, hkind, hstart⟩ := h.layout hn
  exact ⟨k, hb ▸ hk, hkind, by rw [hstart, hs]⟩

theorem GoodModule.led (h : GoodModule cx s) (hk : s.mod.block? b = some k) (hne : k.kind ≠ .code) : Led cx s b := by
  rintro B hB rfl
  obtain ⟨k', hk', hkind, -⟩ := h.blockOf hB
  exact absurd (Option.mem_unique hk hk' ▸ hkind) hne

theorem GoodModule.aim (h : GoodModule cx s) (hk : s.mod.block? b = some k) (hp : holdsCode k.kind = false) :
    Aim cx s b := by
  refine ⟨⟨k, hk, ?_⟩, h.led hk ?_⟩ <;>
  · intro hkind
    rw [hkind] at hp
    cases hp

/-- Jumps may lead to the block of any bci; a bci that is not the start of a block has the entry. -/
theorem GoodModule.target (h : GoodModule cx s) (bci : Int) : s.mod.Target (cx.blockOf bci) := by
  by_cases hB : ∃ B ∈ cx.partition.blocks, (B.start : Int) = bci
  · obtain ⟨B, hB, rfl⟩ := hB
    obtain ⟨k, hk, hkind, -⟩ := h.blockOf hB
    exact ⟨k, hk, by rw [hkind]; decide⟩
  have hnone : cx.blockOf bci = 0 := by
    unfold Context.blockOf
    rw [findIdx?_eq_none_iff.2 fun B hm => decide_eq_false fun hs => hB ⟨B, hm, hs⟩]
  obtain ⟨k, hk, hkind⟩ := h.entry
  exact ⟨k, hnone ▸ hk, by rw [hkind]; decide⟩

theorem mem_of_lookup {α β : Type} [BEq α] [LawfulBEq α] {l : List (α × β)} {a : α} {b : β}
    (h : l.lookup a = some b) : (a, b) ∈ l := by
  obtain ⟨l1, l2, heq, -⟩ := lookup_eq_some_iff.1 h
  rw [heq]
  simp

theorem nodup_of_lookup {α β : Type} [BEq α] [LawfulBEq α] {l : List (α × β)} {a : α} {b : β} (h : l.lookup a = none)
    (hl : (l.map (·.1)).Nodup) : ((l ++ [(a, b)]).map (·.1)).Nodup := by
  rw [map_append, nodup_append]
  refine ⟨hl, nodup_singleton _, fun x hx y hy => ?_⟩
  rintro rfl
  obtain rfl : x = a := mem_singleton.1 hy
  obtain ⟨p, hp, hpa⟩ := mem_map.1 hx
  have hne := lookup_eq_none_iff.1 h p hp
  simp [hpa] at hne

theorem GoodEntries.led (h : GoodEntries cx s) {bci : Int} (hs : Scheduled s bci) : Led cx s (cx.blockOf bci) := by
  obtain ⟨e, he⟩ := hs
  obtain ⟨-, -, B, hB, rfl⟩ := h.scheduled he
  intro B' hB' heq
  exact ⟨e, Context.blockOf_injective hB hB' heq ▸ he⟩

/-- A transfer of control goes on at a block that control may go to. -/
theorem Good.aim (h : Good cx o s) {V : Option Int → Prop} {exit : Exit} {hs : List Int} (hr : RouteFrom cx s V exit hs b) :
    Aim cx s b := by
  cases hs with
  | cons x hs =>
    obtain ⟨k, hk, hkind⟩ := h.leafKind hr
    exact h.toGoodModule.aim hk (by rw [hkind]; rfl)
  | nil =>
    cases exit with
    | ret =>
      obtain ⟨k, hk, hkind⟩ := h.ret hr
      exact h.toGoodModule.aim hk (by rw [hkind]; rfl)
    | jump t =>
      obtain ⟨rfl, e, he, -⟩ := hr
      exact ⟨h.target t, h.toGoodEntries.led ⟨e, mem_of_lookup he⟩⟩

/-- A change of the tables. A part of the invariant that is not named is about a table that stays as it is. -/
structure Retables (cx : Context) (o o' : Hand) (s s' : State) : Prop where
  builder : s'.builder = s.builder := by rfl
  entries : Evolves s s' → GoodEntries cx s → GoodEntries cx s' := by exact fun he h => h.evolve he rfl
  exits : Evolves s s' → GoodExits s → GoodExits s' := by exact fun he h => h.evolve he rfl rfl
  pads : Evolves s s' → GoodPads cx s → GoodPads cx s' := by exact fun he h => h.evolve he rfl
  regions : Evolves s s' → GoodRegions cx s → GoodRegions cx s' := by exact fun he h => h.evolve he rfl
  frame : Evolves s s' → GoodFrame o.depth s → GoodFrame o'.depth s' := by exact fun he h => h.evolve he rfl .inl
  ledger : Evolves s s' → Ledger cx o s → Ledger cx o' s' := by
    exact fun he h => h.retable he rfl (fun _ => Iff.rfl) .inl .inl fun hx _ => .inl hx

theorem Good.retable (h : Good cx o s) {o' : Hand} (he : Evolves s s') (hr : Retables cx o o' s s') : Good cx o' s' where
  toGoodModule := h.toGoodModule.evolve he hr.builder
  toGoodEntries := hr.entries he h.toGoodEntries
  toGoodExits := hr.exits he h.toGoodExits
  toGoodPads := hr.pads he h.toGoodPads
  toGoodRegions := hr.regions he h.toGoodRegions
  toGoodFrame := hr.frame he h.toGoodFrame
  toLedger := hr.ledger he h.toLedger

/-- The state in which a block is scheduled. -/
abbrev State.schedule (s : State) (bci : Int) (e : Entry) : State :=
  { s with entries := s.entries ++ [(bci, e)] }

theorem Evolves.schedule (s : State) (bci : Int) (e : Entry) : Evolves s (s.schedule bci e) :=
  { Evolves.refl s with entries := prefix_append _ _ }

/-- **A block may be scheduled.** -/
theorem Good.schedule (h : Good cx o s) {bci : Int} {e : Entry} (hnew : s.entries.lookup bci = none)
    (hB : ∃ B ∈ cx.partition.blocks, (B.start : Int) = bci) (hown : Known s e.owner)
    (hguard : Guarded cx bci e.owner) (hdepth : e.shape.length ≤ max s.maxStack o.depth) : Good cx o (s.schedule bci e) := by
  have he := Evolves.schedule s bci e
  refine h.retable he {
    entries := fun _ _ => ⟨nodup_of_lookup hnew h.entriesNodup, fun hx => ?_⟩
    frame := fun _ _ => ⟨fun hi hacc => (h.slots hi hacc).mono he, fun hx => ?_⟩ }
  · rcases mem_append.1 hx with hx | hx
    · exact ⟨(h.scheduled hx).1.mono he, (h.scheduled hx).2⟩
    · obtain ⟨rfl, rfl⟩ := Prod.mk.inj (mem_singleton.1 hx)
      exact ⟨hown.mono he, hguard, hB⟩
  · rcases mem_append.1 hx with hx | hx
    · exact h.shapes hx
    · obtain ⟨-, rfl⟩ := Prod.mk.inj (mem_singleton.1 hx)
      exact hdepth

/-- **The lifting of a bytecode block may begin**; its IR block is blank then. -/
theorem Good.start (h : Good cx o s) (hB : B ∈ cx.partition.blocks) (hnew : (B.start : Int) ∉ o.begun) :
    Good cx { o with blocks := cx.blockOf B.start :: o.blocks, begun := B.start :: o.begun } s ∧
      ∃ k, s.mod.block? (cx.blockOf B.start) = some k ∧ k.insts = #[] := by
  obtain ⟨hno, k, hk, ht, hi⟩ := h.pending ⟨B, hB, rfl, hnew⟩
  have hpend {c : BlockId} (hne : c ≠ cx.blockOf B.start) (hp : Pending cx o c) :
      Pending cx { o with blocks := cx.blockOf B.start :: o.blocks, begun := B.start :: o.begun } c := by
    obtain ⟨B', hB', rfl, hx⟩ := hp
    refine ⟨B', hB', rfl, fun hm => (mem_cons.1 hm).elim (fun heq => hne ?_) hx⟩
    rw [heq]
  refine ⟨{ h with
    distinct := nodup_cons.2 ⟨hno, h.distinct⟩
    opened := fun c hc => by
      rcases mem_cons.1 hc with rfl | hc
      · exact ⟨k, hk, ht⟩
      · exact h.opened c hc
    closed := fun {c kc} hkc htc => by
      by_cases hne : c = cx.blockOf B.start
      · exact .inl (hne ▸ mem_cons_self)
      · exact (h.closed hkc htc).imp (mem_cons_of_mem _) (hpend hne)
    pending := fun {c} hp => by
      obtain ⟨B', hB', rfl, hx⟩ := hp
      obtain ⟨hne, hx⟩ := not_or.1 (mt mem_cons.2 hx)
      obtain ⟨hnc, hrest⟩ := h.pending ⟨B', hB', rfl, hx⟩
      refine ⟨fun hc => (mem_cons.1 hc).elim (fun heq => hne ?_) hnc, hrest⟩
      exact congrArg Int.ofNat (Context.blockOf_injective hB' hB heq)
    leaf := fun hx => (h.leaf hx).imp_left (mem_cons_of_mem _)
    returns := fun hx => (h.returns hx).imp_left (mem_cons_of_mem _) }, k, hk, hi⟩

/-! ## Regions -/

/-- The state in which the region of a handler is changed. -/
abbrev State.changeRegion (s : State) (handler : Int) (f : Region → Region) : State :=
  { s with regions := s.regions.map fun r => if r.handler = handler then f r else r }

theorem Evolves.changeRegion {f : Region → Region}
    (hf : ∀ r ∈ s.regions, r.handler = handler → r.Grows (f r)) : Evolves s (s.changeRegion handler f) := by
  refine { Evolves.refl s with regions := ?_ }
  rw [forall₂_map_right_iff, forall₂_same]
  intro r hr
  split
  · exact hf r hr ‹_›
  · exact .refl r

/-- **A region may get exits and ends.** -/
theorem Good.changeRegion (h : Good cx o s) {f : Region → Region} (hf : ∀ r ∈ s.regions, r.handler = handler → r.Grows (f r))
    (houter : ∀ r ∈ s.regions, r.handler = handler → ∀ owner, (f r).outer = some owner → Known s owner)
    (hexits : ∀ r ∈ s.regions, r.handler = handler → (f r).exits.Nodup ∧ ∀ x ∈ (f r).exits, Aim cx s x)
    (hends : ∀ r ∈ s.regions, r.handler = handler → ∀ e ∈ (f r).ends, EndOk s r e.1 e.2) :
    Good cx o (s.changeRegion handler f) := by
  have he := Evolves.changeRegion hf
  have hcases {r' : Region} (hr : r' ∈ (s.changeRegion handler f).regions) :
      ∃ r ∈ s.regions, r.handler = handler ∧ r' = f r ∨ r' = r := by
    obtain ⟨r, hm, rfl⟩ := mem_map.1 hr
    split
    · exact ⟨r, hm, .inl ⟨‹_›, rfl⟩⟩
    · exact ⟨r, hm, .inr rfl⟩
  exact h.retable he { regions := fun _ _ => {
    alike := alike_mono h.alike he.regions
    handlers := by
      rw [handlers_eq he.regions (·.handler)]
      exact h.handlers
    selector := fun r' hr' => by
      obtain ⟨r, hr, hg⟩ := he.region_back hr'
      rw [hg.selector, hg.handler]
      exact h.selector r hr
    outer := fun r' hr' owner ho => by
      obtain ⟨r, hr, ⟨hh, rfl⟩ | rfl⟩ := hcases hr'
      · exact (houter r hr hh owner ho).mono he
      · exact (h.outer r' hr owner ho).mono he
    exits := fun r' hr' => by
      obtain ⟨r, hr, ⟨hh, rfl⟩ | rfl⟩ := hcases hr'
      · exact fun x hx => ((hexits r hr hh).2 x hx).mono he
      · exact fun x hx => (h.exits r' hr x hx).mono he
    exitsNodup := fun r' hr' => by
      obtain ⟨r, hr, ⟨hh, rfl⟩ | rfl⟩ := hcases hr'
      · exact (hexits r hr hh).1
      · exact h.exitsNodup r' hr
    ends := fun r' hr' e hx => by
      obtain ⟨r, hr, ⟨hh, rfl⟩ | rfl⟩ := hcases hr'
      · exact (hends r hr hh e hx).mono he (hf r hr hh)
      · exact (h.ends r' hr e hx).mono he (.refl r') } }

/-- **A region may get an end.** -/
theorem Good.addEnd (h : Good cx o s) {v : ValueId} {E : List BlockId}
    (hE : o.ending = b :: E) {r : Region} (hr : r ∈ s.regions) (hh : r.handler = handler) (hend : EndOk s r b v) :
    Good cx { o with ending := E }
      (s.changeRegion handler fun r => { r with ends := r.ends ++ [(b, v)] }) := by
  have huniq {r' : Region} (hr' : r' ∈ s.regions) (hh' : r'.handler = handler) : r' = r :=
    inj_on_of_nodup_map h.handlers hr' hr (hh'.trans hh.symm)
  have hg : Good cx o (s.changeRegion handler fun r => { r with ends := r.ends ++ [(b, v)] }) := h.changeRegion
    (fun r _ _ => ⟨rfl, rfl, rfl, prefix_rfl, prefix_append _ _⟩)
    (fun r hr _ => h.outer r hr)
    (fun r hr _ => ⟨h.exitsNodup r hr, h.exits r hr⟩)
    (fun r' hr' hh' e hx => by
      rcases mem_append.1 hx with hx | hx
      · exact h.ends r' hr' e hx
      · obtain rfl := mem_singleton.1 hx
        rw [huniq hr' hh']
        exact hend)
  refine { hg with ending := fun {c k w cs} hk ht => ?_ }
  rcases hg.ending hk ht with hx | hx
  · rw [hE] at hx
    rcases mem_cons.1 hx with rfl | hx
    · -- the end of the region switches on the value that it was entered with
      obtain ⟨k', i, cs', hk', -, -, -, -, ht'⟩ := hend
      obtain rfl := Option.mem_unique hk hk'
      obtain ⟨rfl, -⟩ := Terminator.switch.inj (ht.symm.trans ht')
      refine .inr ⟨_, mem_map.2 ⟨r, hr, if_pos hh⟩, ?_⟩
      exact mem_append_right _ (mem_singleton.2 rfl)
    · exact .inl hx
  · exact .inr hx

/-! ## Sites -/

theorem Evolves.setSites (s : State) (sites : List Site) : Evolves s { s with sites := sites } :=
  { Evolves.refl s with }

/-- **Sites may move between the state and the hand.** -/
theorem Good.moveSites (h : Good cx o s) {S T : List Site}
    (hST : ∀ t, t ∈ S ++ T ↔ t ∈ s.sites ++ o.sites) : Good cx { o with sites := T } { s with sites := S } :=
  h.retable (.setSites s S) { ledger := fun he h => h.retable he rfl hST .inl .inl fun hx _ => .inl hx }

/-! ## Leave blocks, the return block and landingpads -/

theorem Evolves.addLeaf (s : State) (key : List Int × Exit) (b : BlockId) :
    Evolves s { s with leaves := s.leaves ++ [(key, b)] } :=
  { Evolves.refl s with leaves := prefix_append _ _ }

/-- **A leave block may be entered while it is open.** -/
theorem Good.addLeaf (h : Good cx o s) {key : List Int × Exit} (hb : b ∈ o.blocks)
    (hk : s.mod.block? b = some k) (hkind : k.kind = .leave) :
    Good cx o { s with leaves := s.leaves ++ [(key, b)] } := by
  have hlast {x : List Int × Exit} {c : BlockId} (hx : (x, c) ∈ s.leaves ++ [(key, b)]) : (x, c) ∈ s.leaves ∨ c = b :=
    (mem_append.1 hx).imp_right fun hx => (Prod.mk.inj (mem_singleton.1 hx)).2
  refine h.retable (.addLeaf s key b) {
    exits := fun _ _ => ⟨fun hx => ?_, h.ret⟩
    ledger := fun he h => h.retable he rfl (fun _ => Iff.rfl) (fun hx => (hlast hx).imp_right fun hc => ?_) .inl fun hx _ => .inl hx }
  · rcases hlast hx with hx | rfl
    · exact h.leafKind hx
    · exact ⟨k, hk, hkind⟩
  · exact hc ▸ hb

theorem Evolves.setReturn (hs : s.returnBlock = none) (b : BlockId) :
    Evolves s { s with returnBlock := some b } :=
  { Evolves.refl s with ret := fun h => nomatch hs.symm.trans h }

/-- **The return block may be entered once, while it is open.** -/
theorem Good.setReturn (h : Good cx o s) (hs : s.returnBlock = none) (hb : b ∈ o.blocks) (hk : s.mod.block? b = some k)
    (hkind : k.kind = .return) : Good cx o { s with returnBlock := some b } := by
  refine h.retable (.setReturn hs b) {
    exits := fun _ _ => ⟨h.leafKind, fun hx => ?_⟩
    ledger := fun he h => h.retable he rfl (fun _ => Iff.rfl) .inl (fun hx => .inr (Option.some.inj hx ▸ hb)) fun hx _ => .inl hx }
  obtain rfl := Option.some.inj hx
  exact ⟨k, hk, hkind⟩

theorem Evolves.addPad (s : State) (c : Int) (p : BlockId) :
    Evolves s { s with pads := s.pads ++ [(c, p)] } :=
  { Evolves.refl s with pads := prefix_append _ _ }

/-- **A landingpad may be entered when it is finished.** -/
theorem Good.addPad (h : Good cx o s) {c : Int} {p : BlockId} {P : List BlockId}
    (hnew : s.pads.lookup c = none) (hp : PadOk cx s c p)
    (hsite : ∃ b k, s.mod.block? b = some k ∧ FaultAt cx s k c) (hP : o.pads = p :: P) :
    Good cx { o with pads := P } { s with pads := s.pads ++ [(c, p)] } := by
  have hcases {x : Int} {q : BlockId} (hx : (x, q) ∈ s.pads ++ [(c, p)]) : (x, q) ∈ s.pads ∨ x = c ∧ q = p :=
    (mem_append.1 hx).imp_right fun hx => Prod.mk.inj (mem_singleton.1 hx)
  refine h.retable (.addPad s c p) {
    pads := fun he _ => ⟨nodup_of_lookup hnew h.padsNodup, fun hx => ?_, fun hx => ?_⟩
    ledger := fun he h => h.retable he rfl (fun _ => Iff.rfl) .inl .inl fun {b k} hx hk => ?_ }
  · rcases hcases hx with hx | ⟨rfl, rfl⟩
    · exact (h.pad hx).mono he
    · exact hp.mono he
  · rcases hcases hx with hx | ⟨rfl, rfl⟩
    · exact h.site hx
    · exact hsite
  · rw [hP] at hx
    rcases mem_cons.1 hx with rfl | hx
    · obtain ⟨n, k', token, exc, st, first, cleanup, hk', hstart, -⟩ := hp
      obtain rfl := Option.mem_unique hk hk'
      exact .inr (mem_append_right _ (by simp [hstart]))
    · exact .inl hx

end Bytelift.Lift
