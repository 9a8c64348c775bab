import Bytelift.Proofs.Lift.Opening

/-!
# Closing a module

When the rounds are over, the blocks that control never comes to are marked, and the switches at the ends
of cleanup code get their cases. The module is complete then, and the invariant says that it is sound.

Results:
* `wp_build`: **a lifting that is not given up ends in a finished state**.
-/

namespace Bytelift.Lift

open Ir List

variable {cx : Context} {o : Hand} {s s' : State} {b : BlockId} {k : Block} {r : Region} {v : ValueId} {D : List Int}

/-! ## Blocks that control never comes to -/

/-- A block of bytecode that is not scheduled. -/
def Idle (cx : Context) (s : State) (b : BlockId) : Prop :=
  ∃ B ∈ cx.partition.blocks, b = cx.blockOf B.start ∧ ¬ Scheduled s B.start

theorem Good.markBlock {I : BlockId → Prop} (h : Good cx { begun := D, idle := I } s) {B : CodeBlock} (hB : B ∈ cx.partition.blocks)
    (hnew : (B.start : Int) ∉ D) (hI : I (cx.blockOf B.start)) :
    Wp (setTerm (cx.blockOf B.start) .unreachable) s fun _ s' => Good cx { begun := B.start :: D, idle := I } s' ∧
      Keeps [] s s' ∧ s'.entries = s.entries := by
  obtain ⟨hg, k, hk, hnil⟩ := h.start hB hnew
  obtain ⟨k0, hk0, ht⟩ := hg.opened _ mem_cons_self
  obtain rfl := Option.mem_unique hk hk0
  obtain ⟨k1, hk1, hkind, -⟩ := h.toGoodModule.blockOf hB
  obtain rfl := Option.mem_unique hk hk1
  have hc : CodeClosable cx { blocks := [cx.blockOf B.start], begun := B.start :: D, idle := I } [] s (cx.blockOf B.start) k
      .unreachable := {
    ne := by simp
    term := trivial
    code := .idle
    join := nofun
    unwinds := fun hv => by simp [hnil] at hv
    split := nofun
    caught := rfl
    sites := by simp
    settled := fun hf => hf.elim
    ending := nofun
    marked := fun _ => hI }
  refine wp_changeBlock hk ⟨?_, keeps_setTerm hk ht (by simp), rfl⟩
  exact hg.close (.refl _) hk (hc.closable hg rfl hk (by rw [hkind]; rfl))

/-- The bytecode blocks `l` are still to be looked at, in a run that began with `s₀`. -/
structure Marking (cx : Context) (s₀ : State) (l : List CodeBlock) (D : List Int) (s : State) : Prop where
  good : Good cx { begun := D, idle := Idle cx s₀ } s
  keeps : Keeps [] s₀ s
  entries : s.entries = s₀.entries
  rest : ∀ B ∈ cx.partition.blocks, B ∈ l ∨ (B.start : Int) ∈ D
  mem : ∀ B ∈ l, B ∈ cx.partition.blocks
  /-- Of those, the ones that control comes to are begun. -/
  begun : ∀ B ∈ l, ((B.start : Int) ∈ D ↔ Scheduled s₀ B.start)
  distinct : l.Pairwise fun B B' => B.start ≠ B'.start

theorem Marking.step {s0 : State} {B : CodeBlock} {l : List CodeBlock} (h : Marking cx s0 (B :: l) D s) :
    Wp (if (s0.entries.lookup (B.start : Int)).isNone then setTerm (cx.blockOf B.start) .unreachable else pure ()) s
      fun _ s' => ∃ D', Marking cx s0 l D' s' := by
  obtain ⟨hne, hpair⟩ := pairwise_cons.1 h.distinct
  have hiff := h.begun B mem_cons_self
  split
  · rename_i hnone
    have hno : ¬ Scheduled s0 B.start := by
      rintro ⟨e, he⟩
      have hnot := lookup_eq_none_iff.1 (Option.isNone_iff_eq_none.1 hnone) _ he
      simp at hnot
    refine (h.good.markBlock (h.mem B mem_cons_self) (mt hiff.1 hno) ⟨B, h.mem B mem_cons_self, rfl, hno⟩).mono fun _ s2 ⟨hg2, hk2, he2⟩ => ?_
    refine ⟨_, hg2, h.keeps.trans hk2, he2.trans h.entries, fun B' hB' => ?_,
      fun B' hB' => h.mem B' (mem_cons_of_mem _ hB'), fun B' hB' => ?_, hpair⟩
    · rcases h.rest B' hB' with hx | hx
      · rcases mem_cons.1 hx with rfl | hx
        · exact .inr mem_cons_self
        · exact .inl hx
      · exact .inr (mem_cons_of_mem _ hx)
    · rw [mem_cons, or_iff_right, h.begun B' (mem_cons_of_mem _ hB')]
      exact fun heq => hne B' hB' (Int.ofNat.inj heq).symm
  · rename_i hsome
    have hin : (B.start : Int) ∈ D := by
      rw [hiff]
      simpa [Scheduled] using hsome
    refine ⟨D, h.good, h.keeps, h.entries, fun B' hB' => ?_, fun B' hB' => h.mem B' (mem_cons_of_mem _ hB'),
      fun B' hB' => h.begun B' (mem_cons_of_mem _ hB'), hpair⟩
    rcases h.rest B' hB' with hx | hx
    · rcases mem_cons.1 hx with rfl | hx
      · exact .inr hin
      · exact .inl hx
    · exact .inr hx

/-- **Every block that control never comes to is marked.** -/
theorem Round.markUnreachable (h : Round cx s.entries.length D s) :
    Wp cx.markUnreachable s fun _ s' => (∃ D', Good cx { begun := D', idle := Idle cx s } s' ∧
      ∀ B ∈ cx.partition.blocks, (B.start : Int) ∈ D') ∧ Keeps [] s s' ∧ s'.entries = s.entries := by
  have hD (c : Int) : c ∈ D ↔ Scheduled s c := by
    rw [h.begun, take_length]
    simp [Scheduled]
  have hdistinct : cx.partition.blocks.Pairwise fun B B' => B.start ≠ B'.start := by
    refine h.tiled.stop_le_start.imp_of_mem fun hB _ hle heq => ?_
    have := h.tiled.start_lt_stop hB
    omega
  refine wp_bind.2 (wp_get.2 ((wp_forM (I := fun l s' => ∃ D', Marking cx s l D' s') ?_ ?_).mono fun _ s' hs' => ?_))
  · rintro B l s1 ⟨D', hm⟩
    exact hm.step
  · have hg : Good cx { begun := D, idle := Idle cx s } s :=
      { h.good with leads := fun hk => (h.good.leads hk).imp_left fun hno ht => (hno ht).elim }
    exact ⟨D, hg, .refl _ s, rfl, fun B hB => .inl hB, fun B hB => hB, fun B _ => hD _, hdistinct⟩
  · obtain ⟨D', hm⟩ := hs'
    exact ⟨⟨D', hm.good, fun B hB => (hm.rest B hB).resolve_left (by simp)⟩, hm.keeps, hm.entries⟩

/-! ## The ends of cleanup code -/

/-- An end of a region has the cases of the region. -/
def Ended (s : State) (r : Region) (e : BlockId × ValueId) : Prop :=
  ∃ k, s.mod.block? e.1 = some k ∧ k.term = .switch e.2 noBlock r.cases

/-- A block ends one region only, by one value. -/
theorem GoodRegions.end_unique (h : GoodRegions cx s) {r' : Region} (hr : r ∈ s.regions) (hr' : r' ∈ s.regions)
    {v' : ValueId} (he : (b, v) ∈ r.ends) (he' : (b, v') ∈ r'.ends) : r = r' ∧ v = v' := by
  obtain ⟨k, i, cs, hk, hv, hi, -, hslot, -⟩ := h.ends r hr _ he
  obtain ⟨k', i', cs', hk', hv', hi', -, hslot', -⟩ := h.ends r' hr' _ he'
  obtain rfl := Option.mem_unique hk hk'
  obtain rfl : v = v' := Option.mem_unique hv hv'
  obtain rfl := Option.mem_unique hi hi'
  -- the selector tells the region
  obtain ⟨n, hn, hname⟩ := h.selector r hr
  obtain ⟨n', hn', hname'⟩ := h.selector r' hr'
  obtain ⟨-, heq⟩ := Slot.mk.inj (hn.symm.trans (hslot.symm.trans (hslot'.trans hn')))
  obtain rfl := Int.ofNat.inj heq
  exact ⟨h.unique hr hr' (selectorName_injective (Option.mem_unique hname hname')), rfl⟩

theorem target_of_mem_cases {c : SwitchCase} (h : c ∈ r.cases) : c.target ∈ r.exits := by
  obtain ⟨⟨x, n⟩, hx, rfl⟩ := mem_map.1 h
  exact fst_mem_of_mem_zipIdx hx

theorem Good.endSwitch (h : Good cx o s) (hr : r ∈ s.regions) (he : (b, v) ∈ r.ends) :
    Wp (setTerm b (.switch v noBlock r.cases)) s fun _ s' => Good cx o s' ∧ Evolves s s' ∧
      s' = s.ended b (.switch v noBlock r.cases) := by
  obtain ⟨k, i, cs, hk, -, -, -, -, ht⟩ := h.ends r hr _ he
  have hsound := (h.block hk).sound
  have hterm := hsound.term
  rw [ht] at hterm
  have hgrows : k.Grows { k with term := .switch v noBlock r.cases } :=
    ⟨rfl, rfl, rfl, rfl, prefix_rfl, fun _ => ⟨rfl, by rw [ht]; exact .cases v cs r.cases⟩, fun _ hd => hd⟩
  refine wp_changeBlock hk ⟨h.amend (S := o.sites) hk {
    closed := by rw [ht]; simp
    grows := hgrows
    term := ⟨hterm.1, fun c hc => (h.exits r hr _ (target_of_mem_cases hc)).target, hterm.2.2⟩
    pad := hsound.pad
    sites := fun _ hx => hx
    kept := fun _ hx _ => hx
    settled := fun hf => ?_
    caught := absurd rfl }, .of_module rfl (.modifyBlock fun k' hk' => ?_), rfl⟩
  · unfold FaultAt at hf
    rw [ht] at hf
    exact hf.elim
  · obtain rfl := Option.mem_unique hk hk'
    exact hgrows

theorem Ended.keeps (h : GoodRegions cx s) {r' : Region} {e : BlockId × ValueId} (hr : r ∈ s.regions)
    (hr' : r' ∈ s.regions) (hv : (b, v) ∈ r.ends) (he : e ∈ r'.ends) (hend : Ended s r' e) :
    Ended (s.ended b (.switch v noBlock r.cases)) r' e := by
  obtain ⟨k, hk, ht⟩ := hend
  by_cases hb : e.1 = b
  · obtain ⟨c, w⟩ := e
    obtain rfl : c = b := hb
    obtain ⟨rfl, rfl⟩ := h.end_unique hr hr' hv he
    exact ⟨_, block?_change_self hk _, rfl⟩
  · exact ⟨k, by rw [State.mod, Module.block?_modifyBlock, if_neg hb]; exact hk, ht⟩

/-- A run that began with `s₀` has given its cases to every end of a region, those of `todo` apart. -/
structure Ending (cx : Context) (o : Hand) (s₀ : State) (todo : Region → BlockId × ValueId → Prop) (s : State) :
    Prop where
  good : Good cx o s
  evolves : Evolves s₀ s
  regions : s.regions = s₀.regions
  sites : s.sites = s₀.sites
  entries : s.entries = s₀.entries
  ended : ∀ r ∈ s₀.regions, ∀ e ∈ r.ends, todo r e ∨ Ended s r e

theorem Ending.step {s0 : State} {todo todo' : Region → BlockId × ValueId → Prop} (h : Ending cx o s0 todo s)
    (hr : r ∈ s0.regions) (he : (b, v) ∈ r.ends)
    (ht : ∀ r' e, todo r' e → todo' r' e ∨ r' = r ∧ e = (b, v)) :
    Wp (setTerm b (.switch v noBlock r.cases)) s fun _ s' => Ending cx o s0 todo' s' := by
  have hr1 := h.regions ▸ hr
  obtain ⟨k, -, -, hk, -⟩ := h.good.ends r hr1 _ he
  refine (h.good.endSwitch hr1 he).mono fun _ s1 hs1 => ?_
  obtain ⟨hg, hev, rfl⟩ := hs1
  refine { h with good := hg, evolves := h.evolves.trans hev, ended := fun r' hr' e he' => ?_ }
  rcases h.ended r' hr' e he' with htodo | hend
  · rcases ht r' e htodo with htodo | ⟨rfl, rfl⟩
    · exact .inl htodo
    · exact .inr ⟨_, block?_change_self hk _, rfl⟩
  · exact .inr (hend.keeps h.good.toGoodRegions hr1 (h.regions ▸ hr') he he')

/-- **Every end of a region gets the cases of the region.** -/
theorem Good.finishCleanups (h : Good cx o s) :
    Wp finishCleanups s fun _ s' => Ending cx o s (fun _ _ => False) s' := by
  refine wp_bind.2 (wp_get.2 ?_)
  refine (wp_forM (I := fun rs s' => (∀ r ∈ rs, r ∈ s.regions) ∧ Ending cx o s (fun r _ => r ∈ rs) s') ?_
    ⟨fun _ hr => hr, h, .refl s, rfl, rfl, rfl, fun r hr _ _ => .inl hr⟩).mono fun _ s' hs' => ?_
  · rintro r rs s1 ⟨hsub, h1⟩
    have hr := hsub r mem_cons_self
    refine (wp_forM (I := fun es s' => (∀ e ∈ es, e ∈ r.ends) ∧
      Ending cx o s (fun r' e => r' ∈ rs ∨ r' = r ∧ e ∈ es) s') ?_ ⟨fun _ he => he, ?_⟩).mono fun _ s2 hs2 => ?_
    · rintro ⟨b, v⟩ es s2 ⟨hes, h2⟩
      refine (h2.step (b := b) (v := v) hr (hes _ mem_cons_self) fun r' e htodo => ?_).mono fun _ s3 h3 =>
        ⟨fun e he => hes e (mem_cons_of_mem _ he), h3⟩
      rcases htodo with hr' | ⟨rfl, he⟩
      · exact .inl (.inl hr')
      · rcases mem_cons.1 he with rfl | he
        · exact .inr ⟨rfl, rfl⟩
        · exact .inl (.inr ⟨rfl, he⟩)
    · refine { h1 with ended := fun r' hr' e he => ?_ }
      rcases h1.ended r' hr' e he with htodo | hend
      · rcases mem_cons.1 htodo with rfl | htodo
        · exact .inl (.inr ⟨rfl, he⟩)
        · exact .inl (.inl htodo)
      · exact .inr hend
    · refine ⟨fun r' hr' => hsub r' (mem_cons_of_mem _ hr'), { hs2.2 with ended := fun r' hr' e he => ?_ }⟩
      rcases hs2.2.ended r' hr' e he with (htodo | ⟨-, hnil⟩) | hend
      · exact .inl htodo
      · cases hnil
      · exact .inr hend
  · refine { hs'.2 with ended := fun r hr e he => ?_ }
    rcases hs'.2.ended r hr e he with htodo | hend
    · cases htodo
    · exact .inr hend

/-! ## The whole lifting -/

/-- The state in which a lifting ends: everything is lifted and nothing is open. -/
structure Finished (cx : Context) (s : State) : Prop where
  tiled : cx.partition.Tiled
  good : ∃ D, Good cx { begun := D, idle := Idle cx s } s ∧ ∀ B ∈ cx.partition.blocks, (B.start : Int) ∈ D
  sites : s.sites = []
  ended : ∀ r ∈ s.regions, ∀ e ∈ r.ends, Ended s r e
  lifted : ∀ x ∈ s.entries, WasLifted cx s x.1 x.2
  starts : Starts cx s
  first : Entered s 0 []
  numStack : s.mod.numStack = s.maxStack

theorem Starts.mono (he : Evolves s s') (h : Starts cx s) : Starts cx s' := by
  obtain ⟨is, hh, hp⟩ := h
  exact ⟨is, hh.mono he.module (Terminator.isFinal_fallthrough _) (by simp), hp⟩

/-- **A module can be closed when nothing is left to do**, and nothing is scheduled then. -/
theorem Round.closeModule (h : Round cx s.entries.length D s) (hsites : s.sites = []) (hstart : Starts cx s)
    (hent : Entered s 0 []) : Wp cx.closeModule s fun _ s' => Finished cx s' ∧ s'.entries = s.entries := by
  refine h.markUnreachable.bind fun _ s3 ⟨⟨D', hg3, hD'⟩, hk3, hent3⟩ => ?_
  refine hg3.finishCleanups.bind fun _ s4 h4 => wp_bind.2 (wp_get.2 (wp_modify.2 ?_))
  have hgrow : s4.mod.Grows { s4.mod with numStack := s4.maxStack } :=
    ⟨id, id, fun hk => ⟨_, hk, .refl _⟩, rfl⟩
  have hev := (hk3.evolves.trans h4.evolves).trans (.of_module (b := { s4.builder with mod := { s4.mod with numStack := s4.maxStack } }) rfl hgrow)
  have hentries : s4.entries = s.entries := h4.entries.trans hent3
  have hidle : Idle cx s = Idle cx s4 := by unfold Idle Scheduled; rw [hentries]
  have hg4 : Good cx { begun := D', idle := Idle cx s4 } s4 := hidle ▸ h4.good
  refine ⟨⟨h.tiled, ⟨D', hg4.sameBlocks hgrow hg4.error rfl hg4.temps (fun hk => ⟨_, _, hk⟩) rfl, hD'⟩,
    h4.sites.trans (hk3.sites.trans hsites), fun r hr e he => ?_, fun x hx => ?_, hstart.mono hev, hent.mono hev, rfl⟩, hentries⟩
  · rcases h4.ended r (h4.regions ▸ hr) e he with hno | ⟨k, hk, htm⟩
    · exact hno.elim
    · exact ⟨k, hk, htm⟩
  · exact (h.lifted x (by rw [take_length, ← hentries]; exact hx)).mono hev

/-- **A lifting that is not given up ends in a finished state.** -/
theorem wp_build (ht : cx.partition.Tiled) :
    Wp cx.build { builder := Builder.new cx.method.key } fun _ s' => Finished cx s' := by
  refine (wp_openModule ht).bind fun _ s1 ⟨hr1, hsites1, hstart, hent⟩ => ?_
  refine (hr1.liftAll (by rw [if_pos hsites1]; omega)).bind fun _ s2 ⟨D, hr2, hsites2, he2⟩ => ?_
  exact (hr2.closeModule hsites2 (hstart.mono he2) (hent.mono he2)).mono fun _ _ h => h.1

/-! ## The finished module -/

theorem Finished.sound (h : Finished cx s) : s.mod.Sound := by
  obtain ⟨D, hg, -⟩ := h.good
  exact ⟨fun hk => (hg.block hk).sound, hg.joined⟩

/-- **A fault that is to be caught goes to the landingpad of its bci.** -/
theorem Finished.mem_pads (h : Finished cx s) (hk : s.mod.block? b = some k) {c : Int} (hf : FaultAt cx s k c) :
    (c, k.term.unwind) ∈ s.pads := by
  obtain ⟨D, hg, -⟩ := h.good
  rcases hg.settled hk hf with ⟨-, t, ht, -⟩ | hpad
  · rw [h.sites] at ht
    cases ht
  · exact hpad

theorem Finished.pad_of_fault (h : Finished cx s) (hk : s.mod.block? b = some k) {c : Int} (hf : FaultAt cx s k c) :
    PadOk cx s c k.term.unwind := by
  obtain ⟨D, hg, -⟩ := h.good
  exact hg.pad (h.mem_pads hk hf)

theorem Finished.complete (h : Finished cx s) : s.mod.Complete := by
  obtain ⟨D, hg, hD⟩ := h.good
  refine ⟨fun hk ht => ?_, fun {b k t u} hk ht => ?_, fun hk hkind => ?_⟩
  · rcases hg.closed hk ht with hnil | ⟨B, hB, -, hnew⟩
    · cases hnil
    · exact hnew (hD B hB)
  · obtain ⟨c, hf⟩ := (hg.block hk).split ht
    have hpad := h.pad_of_fault hk hf
    rw [ht] at hpad
    obtain ⟨k', hk', -⟩ := hpad.unwindDest
    rintro rfl
    cases hk'
  · rcases hg.padBlock hk hkind with hnil | hp
    · cases hnil
    · obtain ⟨-, k', -, -, -, -, cleanup, hk', -, -, -, -, -, -, -, -, -, -, hd⟩ := hg.pad hp
      obtain rfl := Option.mem_unique hk hk'
      exact ⟨_, hd⟩

/-- The state with other edges entered into its module. -/
abbrev State.link (s : State) (m : Module) : State := { s with builder := { s.builder with mod := m } }

/-- **A finished state is finished with edges entered.** -/
theorem Finished.link {m : Module} (h : Finished cx s) (hl : s.mod.Linked m) : Finished cx (s.link m) := by
  have he : Evolves s (s.link m) := .of_module rfl hl.grows
  obtain ⟨D, hg, hD⟩ := h.good
  have hedges {c : BlockId} {k : Block} (hk : m.block? c = some k) :
      ∃ preds succs, s.mod.block? c = some { k with preds := preds, succs := succs } := by
    obtain ⟨k0, hk0, _, _, rfl⟩ := hl.some_of_block hk
    exact ⟨k0.preds, k0.succs, hk0⟩
  exact {
    tiled := h.tiled
    good := ⟨D, hg.sameBlocks hl.grows hg.error rfl (hl.temps ▸ hg.temps) hedges hl.insts, hD⟩
    sites := h.sites
    ended := fun r hr e hx => by
      obtain ⟨k, hk, ht⟩ := h.ended r hr e hx
      obtain ⟨_, _, hk'⟩ := hl.block_of_some hk
      exact ⟨_, hk', ht⟩
    lifted := fun x hx => (h.lifted x hx).mono he
    starts := h.starts.mono he
    first := h.first.mono he
    numStack := hl.numStack.trans h.numStack }

/-- **The module of a finished state can be frozen.** -/
theorem Finished.freeze (h : Finished cx s) :
    ∃ m, s.builder.freeze.1 = .ok m ∧ m.frozen = true ∧ s.mod.Linked m := by
  obtain ⟨D, hg, -⟩ := h.good
  refine Builder.freeze_sound hg.error h.sound h.complete ?_
  obtain ⟨k, hk, -⟩ := hg.entry
  have hentry : s.mod.entry = 0 := congrArg Module.Header.entry hg.header
  exact ⟨k, hentry ▸ hk⟩

end Bytelift.Lift
