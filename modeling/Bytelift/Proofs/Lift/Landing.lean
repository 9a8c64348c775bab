import Bytelift.Proofs.Lift.Leaving

/-!
# Landingpads

A landingpad is built from blocks that try the rows in order. The rows that get a block are the
`candidates`; each block is filled so that it either enters a region and goes on with the next block, or
delivers the exception, or goes on with the next block if the exception is not of the class of the row.

Results:
* `Good.fillSteps`: **the blocks try the candidates in order**.
-/

namespace Bytelift.Lift

open Ir List

variable {cx : Context} {o : Hand} {s s' : State} {b : BlockId} {k : Block}

/-! ## The regions of the table -/

theorem handlers_addRow (rs : List Region) (slot : Slot) (e : ExceptionEntry) :
    (addRow rs slot e).map (·.handler) =
      if rs.any (·.handler = e.handler) then rs.map (·.handler) else rs.map (·.handler) ++ [e.handler] := by
  unfold addRow
  split
  · rw [map_map]
    refine map_congr_left fun r _ => ?_
    simp only [Function.comp_apply]
    split <;> rfl
  · simp

/-- A row is one of a region once it has been entered. -/
theorem mem_handlers_addRow (rs : List Region) (slot : Slot) (e : ExceptionEntry) :
    e.handler ∈ (addRow rs slot e).map (·.handler) ∧ ∀ x ∈ rs.map (·.handler), x ∈ (addRow rs slot e).map (·.handler) := by
  rw [handlers_addRow]
  split
  · rename_i hany
    obtain ⟨r, hr, hh⟩ := any_eq_true.1 hany
    exact ⟨mem_map.2 ⟨r, hr, of_decide_eq_true hh⟩, fun x hx => hx⟩
  · exact ⟨by simp, fun x hx => mem_append_left _ hx⟩

theorem mem_cleanups {table : HandlerTable} {e : ExceptionEntry} (he : e ∈ table) (hc : e.isCleanup = true) :
    e.handler ∈ (cleanups table).map (·.handler) := by
  have hfold : ∀ (rows : List ExceptionEntry) (rs : List Region),
      (∀ x ∈ rs.map (·.handler), x ∈ (rows.foldl (fun rs e => addRow rs ⟨.temp, 0⟩ e) rs).map (·.handler)) ∧
        ∀ e ∈ rows, e.handler ∈ (rows.foldl (fun rs e => addRow rs ⟨.temp, 0⟩ e) rs).map (·.handler) := by
    intro rows
    induction rows with
    | nil => exact fun rs => ⟨fun x hx => hx, by simp⟩
    | cons e rows ih =>
      intro rs
      obtain ⟨hself, hold⟩ := mem_handlers_addRow rs ⟨.temp, 0⟩ e
      obtain ⟨hkeep, hnew⟩ := ih (addRow rs ⟨.temp, 0⟩ e)
      refine ⟨fun x hx => hkeep x (hold x hx), fun e' he' => ?_⟩
      rcases mem_cons.1 he' with rfl | he'
      · exact hkeep _ hself
      · exact hnew e' he'
  exact (hfold _ []).2 e (mem_filter.2 ⟨he, hc⟩)

/-- Every cleanup row of the table belongs to a region. -/
theorem GoodRegions.hasRegion (h : GoodRegions cx s) {e : ExceptionEntry} (he : e ∈ cx.table)
    (hc : e.isCleanup = true) : HasRegion s e.handler := by
  have hm := mem_cleanups he hc
  rw [← handlers_eq h.alike (·.handler)] at hm
  obtain ⟨r, hr, hh⟩ := mem_map.1 hm
  exact ⟨r, hr, hh⟩

/-! ## The blocks of the candidates -/

/-- Rows that end with one that catches everything, or that hold none. -/
inductive Chain : List ExceptionEntry → Bool → Prop
  | nil : Chain [] false
  | stop {e} (hc : e.isCleanup = false) (ha : e.catchesAny = true) : Chain [e] true
  | cons {e rows all} (hgo : (!e.isCleanup && e.catchesAny) = false) (h : Chain rows all) : Chain (e :: rows) all

variable {bci c : Int} {e : ExceptionEntry} {steps : List PadStep} {P : List BlockId} {owner : Owner}

/-- The handlers of the regions that some steps run. -/
def metBy (steps : List PadStep) : List Int := (steps.filter (·.row.isCleanup)).map (·.row.handler)

theorem isRepeated_iff : isRepeated steps e = true ↔ e.isCleanup = true ∧ e.handler ∈ metBy steps := by
  unfold isRepeated metBy
  simp only [Bool.and_eq_true, any_eq_true, mem_map, mem_filter, decide_eq_true_eq]
  refine and_congr_right fun _ => exists_congr fun st => ?_
  tauto

/-- A new block of a landingpad. -/
def BlankStep (s : State) (bci : Int) (b : BlockId) : Prop :=
  ∃ k, s.mod.block? b = some k ∧ k.kind = .dispatch ∧ k.insts = #[] ∧ k.start = bci

theorem candidates_subset {met : List Int} {rows : List ExceptionEntry} (h : e ∈ candidates met rows) : e ∈ rows := by
  fun_induction candidates met rows with
  | case1 => exact h
  | case2 met e' rows _ _ ih => exact mem_cons_of_mem _ (ih h)
  | case3 met e' rows _ _ ih | case5 met e' rows _ _ ih => exact mem_cons.2 ((mem_cons.1 h).imp_right ih)
  | case4 met e' rows => exact mem_singleton.1 h ▸ mem_cons_self

theorem candidates_congr {met met' : List Int} (h : ∀ x, x ∈ met ↔ x ∈ met') (rows : List ExceptionEntry) :
    candidates met rows = candidates met' rows := by
  induction rows generalizing met met' with
  | nil => rfl
  | cons e rows ih =>
    have hcons : ∀ x, x ∈ e.handler :: met ↔ x ∈ e.handler :: met' := fun x => by
      rw [mem_cons, mem_cons, h]
    simp only [candidates, h, ih h, ih hcons]

/-- The steps behind a step, when it is not the last. -/
theorem candidates_cons {rows : List ExceptionEntry}
    (hrep : isRepeated steps e = false) (hgo : (!e.isCleanup && e.catchesAny) = false) :
    candidates (metBy steps) (e :: rows) = e :: candidates (metBy (steps ++ [⟨e, b⟩])) rows := by
  have hmet : metBy (steps ++ [⟨e, b⟩]) = metBy steps ++ if e.isCleanup then [e.handler] else [] := by
    unfold metBy
    rw [filter_append, map_append]
    cases hc : e.isCleanup <;> simp [hc]
  rw [candidates, hmet]
  cases hc : e.isCleanup with
  | true =>
    have hnot : e.handler ∉ metBy steps := fun hm => by
      rw [isRepeated_iff.2 ⟨hc, hm⟩] at hrep
      cases hrep
    simp only [if_pos, if_neg hnot]
    exact congrArg (e :: ·) (candidates_congr (fun x => by simp [or_comm]) rows)
  | false =>
    have hany : e.catchesAny = false := by simpa [hc] using hgo
    simp [hany]

/-- The steps of a landingpad are those of the candidates, whatever the state is. -/
theorem run_padSteps (bci : Int) (rows : List ExceptionEntry) (steps : List PadStep) (s : State) :
    ∃ new all s', (padSteps bci rows steps).run s = (.ok (steps ++ new, all), s') ∧
      new.map (·.row) = candidates (metBy steps) rows := by
  induction rows generalizing steps s with
  | nil => exact ⟨[], false, s, by rw [append_nil]; rfl, rfl⟩
  | cons e rows ih =>
    unfold padSteps
    cases hrep : isRepeated steps e with
    | true =>
      obtain ⟨hc, hm⟩ := isRepeated_iff.1 hrep
      rw [if_pos rfl, candidates, if_pos hc, if_pos hm]
      exact ih steps s
    | false =>
      rw [if_neg (by simp), run_bind]
      generalize bciLabel bci _ = label
      have hstep : (newBlock label bci .dispatch).run s =
        (.ok s.mod.blocks.size, { s with builder := (s.builder.newBlock label bci .dispatch).2 }) := rfl
      rw [hstep]
      dsimp only
      split
      · rename_i hstop
        have hstop : e.isCleanup = false ∧ e.catchesAny = true := by simpa using hstop
        exact ⟨[⟨e, s.mod.blocks.size⟩], true, _, rfl, by simp [candidates, hstop.1, hstop.2]⟩
      · rename_i hgo
        obtain ⟨new, all, s', hrun, hrows⟩ := ih (steps ++ [⟨e, s.mod.blocks.size⟩]) _
        refine ⟨⟨e, s.mod.blocks.size⟩ :: new, all, s', by rw [hrun]; simp, ?_⟩
        rw [map_cons, hrows, candidates_cons hrep (by simpa using hgo)]

/-- **The blocks of a landingpad are those of the candidates.** -/
theorem Good.padSteps (bci : Int) (rows : List ExceptionEntry) (steps : List PadStep) (h : Good cx o s) :
    Wp (padSteps bci rows steps) s fun p s' => ∃ new : List PadStep, p.1 = steps ++ new ∧
      new.map (·.row) = candidates (metBy steps) rows ∧ Chain (new.map (·.row)) p.2 ∧
      Good cx { o with blocks := (new.map (·.block)).reverse ++ o.blocks } s' ∧ Keeps o.blocks s s' ∧
      ∀ st ∈ new, BlankStep s' bci st.block := by
  induction rows generalizing s o steps with
  | nil => exact ⟨[], by simp, rfl, .nil, h, .refl _ s, by simp⟩
  | cons e rows ih =>
    unfold Lift.padSteps
    split
    · -- a later row of a region that is run already
      rename_i hrep
      obtain ⟨hc, hm⟩ := isRepeated_iff.1 hrep
      have heq : candidates (metBy steps) (e :: rows) = candidates (metBy steps) rows := by
        rw [candidates, if_pos hc, if_pos hm]
      rw [heq]
      exact ih steps h
    · rename_i hrep
      have hrep : isRepeated steps e = false := by simpa using hrep
      dsimp only
      have hlabel {c : Int} : bciLabel bci ((if e.isCleanup = true then ("_cleanup_" : Text) else "_catch_") ++
          Text.ofNat steps.length) ≠ padLabel c := by
        cases e.isCleanup <;> exact bciLabel_ne_padLabel rfl rfl (by decide)
      generalize bciLabel bci _ = label at hlabel
      refine wp_bind.2 (h.blankBlock (by nofun) hlabel fun s1 _ h1 hk1 hb => ?_)
      have hb1 : BlankStep s1 bci s.mod.blocks.size := ⟨_, hb, rfl, rfl, rfl⟩
      split
      · rename_i hstop
        have hstop : e.isCleanup = false ∧ e.catchesAny = true := by simpa using hstop
        refine ⟨[⟨e, s.mod.blocks.size⟩], rfl, ?_, .stop hstop.1 hstop.2, h1, hk1, fun st hst => ?_⟩
        · simp [candidates, hstop.1, hstop.2]
        · exact mem_singleton.1 hst ▸ hb1
      rename_i hgo
      have hgo : (!e.isCleanup && e.catchesAny) = false := by simpa using hgo
      refine (ih (steps ++ [⟨e, s.mod.blocks.size⟩]) h1).mono fun p s2 hs2 => ?_
      obtain ⟨new, hnew, hrows, hchain, h2, hk2, hblank⟩ := hs2
      refine ⟨⟨e, s.mod.blocks.size⟩ :: new, by rw [hnew]; simp, ?_, .cons hgo hchain, ?_, ?_, fun st hst => ?_⟩
      · rw [candidates_cons hrep hgo, map_cons, hrows]
      · simpa using h2
      · exact hk1.trans (hk2.subset fun c hc => mem_cons_of_mem _ hc)
      · rcases mem_cons.1 hst with rfl | hst
        · obtain ⟨k, hk, hrest⟩ := hb1
          exact ⟨k, (hk2.blocks _ mem_cons_self).trans hk, hrest⟩
        · exact hblank st hst

/-! ## Filling the blocks -/

theorem BlankStep.keeps {L : List BlockId} (hk : Keeps L s s') (hb : b ∈ L) (h : BlankStep s bci b) : BlankStep s' bci b := by
  obtain ⟨k, hbk, hrest⟩ := h
  exact ⟨k, (hk.blocks b hb).trans hbk, hrest⟩

theorem BlankStep.filling (h : BlankStep s bci b) (hg : Good cx o s)
    (hP : o.blocks.Perm (b :: P)) : Filling cx o P s b .dispatch bci [] := by
  obtain ⟨k, hk, hkind, hnil, hstart⟩ := h
  exact ⟨hg, hP, ⟨k, hk, hkind, hstart, by rw [hnil]; exact .nil⟩, rfl, by simp⟩

/-- The block of a step that tries a row, and the block that follows it. -/
def StepOk (cx : Context) (s : State) (caught : Slot) (st : PadStep) (next : BlockId) : Prop :=
  if !st.row.isCleanup && st.row.catchesAny then
    ∃ v, Delivers s st.block caught [] v (.goto (cx.blockOf st.row.handler)) ∧ Entered s st.row.handler [.ref]
  else Tries cx s caught st.row st.block next

theorem Good.padStep (h : Good cx o s) (hd : 0 < o.depth) {caught : Slot} (hcaught : InFrame o.depth s caught)
    {st : PadStep} {next : BlockId} (hP : o.blocks.Perm (st.block :: P)) (hb : BlankStep s bci st.block)
    (hrow : st.row ∈ cx.table) (hown : Known s owner)
    (hnext : (!st.row.isCleanup && st.row.catchesAny) = false → Aim cx s next) :
    Wp (cx.padStep bci caught owner st next) s fun clause s' => clause = clauseOf cx st.row ∧
      Good cx { o with blocks := P } s' ∧ Keeps P s s' ∧ StepOk cx s' caught st next := by
  have hPo : ∀ c ∈ P, c ∈ o.blocks := fun c hc => hP.mem_iff.2 (mem_cons_of_mem _ hc)
  have hmem : st.block ∈ o.blocks := hP.mem_iff.2 mem_cons_self
  unfold Context.padStep StepOk clauseOf
  dsimp only
  cases hc : st.row.isCleanup with
  | true =>
    obtain ⟨k, hk, hkind, hnil, -⟩ := hb
    have hleaf {x : List Int × Exit} (hx : (x, st.block) ∈ s.leaves) : False := by
      obtain ⟨kl, hkl, hleave⟩ := h.leafKind hx
      obtain rfl := Option.mem_unique hk hkl
      rw [hkind] at hleave
      cases hleave
    refine (h.routeThrough hP hk hnil (.inr hkind) bci (h.toGoodRegions.hasRegion hrow hc) (hnext (by rw [hc]; rfl))
      hown (fun hx => (hleaf hx).elim)).bind fun _ s1 hs1 => ?_
    obtain ⟨h1, hk1, hent, hsch⟩ := hs1
    exact ⟨rfl, h1, hk1, .cleanup hc (hkind ▸ hent) hsch⟩
  | false =>
    have howner : Known s (handlerOwner owner st.row) := fun x hx => hown x ((dropWhile_sublist _).subset hx)
    refine (h.enqueue st.row.handler howner (by exact le_max_of_le_right hd)).bind fun _ s1 ⟨h1, hk1, hent, _⟩ => ?_
    refine wp_bind.2 (((hb.keeps hk1 hmem).filling h1 hP).emit (by simp) (by nofun) rfl (by nofun) (by nofun)
      (fun v s2 _ f2 hk2 => ?_) fun _ => hcaught.mono hk1.evolves)
    refine wp_bind.2 (f2.emit (by simp) (by nofun) rfl (by nofun) (by nofun) (fun w s3 _ f3 hk3 => ?_)
      fun _ => .stack (lt_max_of_lt_right hd))
    have hk3' : Keeps P s s3 := ((hk1.subset hPo).trans hk2).trans hk3
    have hsch : Scheduled s3 st.row.handler := hent.scheduled.mono (hk2.trans hk3).evolves
    have hselect {is : List Inst} {n : Nat} {i : Inst} (hi : i ∈ is) (his : ∀ i ∈ is, i.slot.space = .temp → i.op ≠ .storeSlot)
        (hop : i.op = .storeSlot) (hslot : i.slot = ⟨.temp, (n : Nat)⟩) : False :=
      his i hi (by rw [hslot]) hop
    cases ha : st.row.catchesAny with
    | true =>
      refine wp_bind.2 (f3.close (t := .goto _) (by simp) (.inr (f3.good.toGoodEntries.led hsch)) (fun k => f3.good.target _)
        (fun hi hop hslot _ _ => (hselect hi ?_ hop hslot).elim) nofun nofun fun s4 _ h4 hk4 hh => ?_)
      · simp
      · exact ⟨rfl, h4, hk3'.trans hk4, v, ⟨_, _, hh, rfl, rfl, rfl, rfl, rfl, rfl⟩,
          hent.mono ((hk2.trans hk3).trans hk4).evolves⟩
    | false =>
      refine wp_bind.2 (f3.emit (by simp) (by nofun) rfl (by nofun) (by nofun) fun t s4 _ f4 hk4 => ?_)
      have haim : Aim cx s4 next := (hnext (by rw [hc, ha]; rfl)).mono (hk3'.trans hk4).evolves
      refine wp_bind.2 (f4.close (t := .condBr _ _ _) (by simp)
        ⟨.inr (f4.good.toGoodEntries.led (hsch.mono hk4.evolves)), .inr haim.led⟩
        (fun k => ⟨f4.good.target _, haim.target, f4.use (mem_append_right _ (mem_singleton_self _))⟩)
        (fun hi hop hslot _ _ => (hselect hi ?_ hop hslot).elim) nofun nofun fun s5 _ h5 hk5 hh => ?_)
      · simp
      · exact ⟨rfl, h5, (hk3'.trans hk4).trans hk5, .test hc ha ⟨_, _, hh, rfl, rfl, rfl, rfl, rfl, rfl⟩ rfl rfl rfl
          (hent.mono ((hk2.trans hk3).trans (hk4.trans hk5)).evolves)⟩

theorem BlankStep.aim (h : BlankStep s bci b) (hg : GoodModule cx s) : Aim cx s b := by
  obtain ⟨k, hk, hkind, -⟩ := h
  exact hg.aim hk (by rw [hkind]; rfl)

/-- The first block of some steps, or the block behind them. -/
def firstOf (steps : List PadStep) (tail : BlockId) : BlockId := (steps.head?.map (·.block)).getD tail

theorem aim_firstOf {tail : BlockId} {all : Bool} (hg : GoodModule cx s)
    (hblank : ∀ st ∈ steps, BlankStep s bci st.block) (hchain : Chain (steps.map (·.row)) all)
    (htail : all = false → Aim cx s tail) : Aim cx s (firstOf steps tail) := by
  cases steps with
  | nil =>
    cases hchain
    exact htail rfl
  | cons st _ => exact (hblank st mem_cons_self).aim hg

/-- **The blocks of a landingpad try their rows in order.** -/
theorem Good.fillSteps {tail : BlockId} {caught : Slot}
    {all : Bool} (h : Good cx o s) (hd : 0 < o.depth) (hcaught : InFrame o.depth s caught) (hP : o.blocks.Perm (steps.map (·.block) ++ P))
    (hblank : ∀ st ∈ steps, BlankStep s bci st.block) (hrows : ∀ st ∈ steps, st.row ∈ cx.table)
    (hown : Known s owner) (hchain : Chain (steps.map (·.row)) all)
    (htail : all = false → Aim cx s tail ∧ Attempts cx s caught [] tail) :
    Wp (cx.fillSteps bci caught owner tail steps) s fun clauses s' =>
      clauses = (steps.map (·.row)).map (clauseOf cx) ∧ Good cx { o with blocks := P } s' ∧ Keeps P s s' ∧
        Attempts cx s' caught (steps.map (·.row)) (firstOf steps tail) := by
  induction steps generalizing s o with
  | nil =>
    cases hchain
    exact ⟨rfl, h.perm hP, .refl _ s, (htail rfl).2⟩
  | cons st rest ih =>
    have hrest : Chain (rest.map (·.row)) all → Aim cx s (firstOf rest tail) := fun hc =>
      aim_firstOf h.toGoodModule (fun q hq => hblank q (mem_cons_of_mem _ hq)) hc fun ha => (htail ha).1
    have hstep (hnext : (!st.row.isCleanup && st.row.catchesAny) = false → Aim cx s (firstOf rest tail)) :
        Wp (cx.padStep bci caught owner st (firstOf rest tail)) s _ :=
      h.padStep hd hcaught hP (hblank st mem_cons_self) (hrows st mem_cons_self) hown hnext
    generalize hrow : (st :: rest).map (·.row) = rows at hchain
    cases hchain with
    | nil => cases hrow
    | stop hc ha =>
      obtain ⟨rfl, hnil⟩ := List.cons.inj hrow
      obtain rfl := map_eq_nil_iff.1 hnil
      refine (hstep fun hgo => by simp [hc, ha] at hgo).bind fun clause s1 hs1 => ?_
      obtain ⟨rfl, h1, hk1, hok⟩ := hs1
      rw [StepOk, if_pos (by simp [hc, ha])] at hok
      obtain ⟨v, hd, hs⟩ := hok
      exact ⟨rfl, h1, hk1, .catchAny hc ha hd hs⟩
    | cons hgo hc =>
      obtain ⟨rfl, rfl⟩ := List.cons.inj hrow
      refine (hstep fun _ => hrest hc).bind fun clause s1 hs1 => ?_
      obtain ⟨rfl, h1, hk1, hok⟩ := hs1
      rw [StepOk, if_neg (by simp [hgo])] at hok
      have hin {q : PadStep} (hq : q ∈ rest) : q.block ∈ rest.map (·.block) ++ P :=
        mem_append_left _ (mem_map_of_mem hq)
      refine (ih h1 hd (hcaught.mono hk1.evolves) (.refl _) (fun q hq => (hblank q (mem_cons_of_mem _ hq)).keeps hk1 (hin hq))
        (fun q hq => hrows q (mem_cons_of_mem _ hq)) (hown.mono hk1.evolves) hc fun ha =>
          ⟨(htail ha).1.mono hk1.evolves, (htail ha).2.mono hk1.evolves⟩).bind fun clauses s2 hs2 => ?_
      obtain ⟨rfl, h2, hk2, hat⟩ := hs2
      exact ⟨rfl, h2, (hk1.subset fun c hc => mem_append_right _ hc).trans hk2, .step (hok.mono hk2.evolves) hat⟩

/-! ## The landingpad of a bci -/

theorem Good.padTail (h : Good cx o s) (bci : Int) {caught : Slot} (hcaught : InFrame o.depth s caught) (all : Bool) :
    Wp (Context.padTail bci caught all) s fun tail s' => Good cx o s' ∧ Keeps o.blocks s s' ∧
      (all = false → Aim cx s' tail ∧ Attempts cx s' caught [] tail) := by
  unfold Context.padTail
  cases all with
  | true => exact ⟨h, .refl _ s, nofun⟩
  | false =>
    simp only [Bool.false_eq_true, ↓reduceIte]
    refine wp_bind.2 (h.blankBlock (by nofun) (by exact bciLabel_ne_padLabel rfl rfl (by decide)) fun s1 _ h1 hk1 hb1 => ?_)
    have f1 : Filling cx { o with blocks := s.mod.blocks.size :: o.blocks } o.blocks _ s.mod.blocks.size .resume bci [] :=
      ⟨h1, .refl _, ⟨_, hb1, rfl, rfl, .nil⟩, rfl, by simp⟩
    refine wp_bind.2 (f1.emit (by simp) (by nofun) rfl (by nofun) (by nofun) (fun v s2 _ f2 hk2 => ?_)
      fun _ => hcaught.mono hk1.evolves)
    refine wp_bind.2 (f2.close (t := .resume _) (by simp) trivial
      (fun k => f2.use (mem_append_right _ (mem_singleton_self _))) (fun hi hop => ?_) nofun nofun
      fun s3 _ h3 hk3 hh => ?_)
    · simp only [nil_append, mem_singleton] at hi
      subst hi
      cases hop
    · have ⟨k, hk, hkind, _⟩ := hh
      exact ⟨h3, (hk1.trans hk2).trans hk3, fun _ => ⟨h3.toGoodModule.aim hk (by rw [hkind]; rfl), .resume hh rfl rfl⟩⟩

theorem GoodModule.target_clause (h : GoodModule cx s) {rows : List ExceptionEntry} {c : Clause}
    (hc : c ∈ rows.map (clauseOf cx)) : s.mod.Target c.target := by
  obtain ⟨e, -, rfl⟩ := mem_map.1 hc
  have htarget : (clauseOf cx e).target = cx.blockOf e.handler := by
    unfold clauseOf
    split
    · rfl
    · split <;> rfl
  rw [htarget]
  exact h.target _

theorem Good.describe (h : Good cx o s) (hk : s.mod.block? b = some k) (hnone : k.pad = none) {token : Inst}
    {is : List Inst} {t : Terminator} (ht : t ≠ .none) (hh : s.mod.Holds b .landingpad (token :: is) t)
    (hop : token.op = .landingpad) {d : Landingpad} (hd : ∀ c ∈ d.clauses, s.mod.Target c.target) :
    Good cx o (s.change b fun k => { k with pad := some d }) ∧
      Evolves s (s.change b fun k => { k with pad := some d }) := by
  obtain ⟨k', hk', -, hterm, his⟩ := hh
  obtain rfl := Option.mem_unique hk hk'
  have hgrows : k.Grows { k with pad := some d } :=
    ⟨rfl, rfl, rfl, rfl, prefix_rfl, fun _ => ⟨rfl, .refl _⟩, fun d' hd' => nomatch hnone.symm.trans hd'⟩
  have hfirst : ∃ v i, k.insts[0]? = some v ∧ s.mod.inst? v = some i ∧ i.op = .landingpad := by
    cases hi : k.insts.toList with
    | nil => simp [hi] at his
    | cons v vs =>
      rw [hi] at his
      cases his with
      | cons hv _ => exact ⟨v, token, by rw [← Array.getElem?_toList, hi]; rfl, hv, hop⟩
  refine ⟨h.amend hk (S := o.sites) {
    closed := hterm ▸ ht
    grows := hgrows
    term := (h.block hk).sound.term
    pad := fun hd' => ⟨hfirst, Option.some.inj hd' ▸ hd⟩
    sites := fun _ hx => hx
    kept := fun _ hx _ => hx
    settled := h.settled hk
    caught := (h.block hk).caught }, .of_module rfl (.modifyBlock fun k' hk' => ?_)⟩
  obtain rfl := Option.mem_unique hk hk'
  exact hgrows

/-- The label of a landingpad is not numbered, as there is one landingpad of a bci. -/
theorem Good.freshLabel_padLabel (h : Good cx o s) {bci : Int}
    (hnew : ∀ {b k}, s.mod.block? b = some k → k.kind = .landingpad → k.start ≠ bci) :
    s.builder.freshLabel (padLabel bci) = padLabel bci := by
  have hcount : s.builder.requested.count (padLabel bci) = 0 := count_eq_zero.2 fun hm => by
    obtain ⟨b, k, hk, hkind, hstart⟩ := h.labels hm
    exact hnew hk hkind hstart
  rw [Builder.freshLabel, hcount]
  rfl

/-- **The landingpad of a bci can be built, and follows the table.** -/
theorem Good.buildPad (h : Good cx o s) (bci : Int) (hown : Known s owner)
    (hnew : ∀ {b k}, s.mod.block? b = some k → k.kind = .landingpad → k.start ≠ bci) :
    Wp (cx.buildPad bci owner) s fun p s' => Good cx { o with pads := p :: o.pads } s' ∧ Evolves s s' ∧
      s'.sites = s.sites ∧ s'.pads = s.pads ∧ PadOk cx s' bci p := by
  refine wp_bind.2 (wp_newBlock ?_)
  change Wp _ { s with builder := (s.builder.newBlock (padLabel bci) bci .landingpad).2 } _
  have hlabel := h.freshLabel_padLabel hnew
  have hasked {c : Int} (hl : padLabel bci = padLabel c) : bci = c :=
    (bciLabel_injective (by rintro _ ⟨⟩; rfl) (by rintro _ ⟨⟩; rfl) hl).1
  generalize hname : padLabel bci = label at hlabel hasked
  let p : BlockId := s.mod.blocks.size
  have h1 := h.newBlock label bci .landingpad (P := p :: o.pads) (fun _ hx => mem_cons_of_mem _ hx)
    (fun _ => mem_cons_self) (fun hl => ⟨rfl, hasked hl⟩)
  have hk1 := h.keeps_newBlock label bci .landingpad
  have hb1 : (s.builder.newBlock label bci .landingpad).2.mod.block? p =
      some (s.builder.blankBlock label bci .landingpad) := by
    rw [Builder.block?_newBlock]
    exact if_pos rfl
  refine (h1.temp (caughtName bci)).bind fun caught s2 hs2 => ?_
  obtain ⟨h2, hk2, n, rfl, hn⟩ := hs2
  have f2 : Filling cx _ o.blocks s2 p .landingpad bci [] :=
    ⟨h2, .refl _, ⟨_, (hk2.blocks p mem_cons_self).trans hb1, rfl, rfl, .nil⟩, rfl, by simp⟩
  -- the exception is kept
  refine wp_bind.2 (f2.emit (by simp) (fun _ => ⟨rfl, rfl⟩) rfl (by nofun) (by nofun) fun token s3 _ f3 hk3 => ?_)
  refine wp_bind.2 (f3.emit (by simp) (by nofun) rfl (by nofun) (by nofun) fun exc s4 _ f4 hk4 => ?_)
  have hn4 := (hk3.trans hk4).evolves.module.temp hn
  refine wp_bind.2 (f4.emit (by simp) (by nofun) rfl (by nofun) (fun _ _ _ hkind hstart _ => .caught rfl hn4 hkind hstart)
    (fun st s5 _ f5 hk5 => ?_) fun _ => .temp hn4)
  have hkeep5 : Keeps o.blocks s s5 :=
    (hk1.trans (hk2.subset fun c hc => mem_cons_of_mem _ hc)).trans ((hk3.trans hk4).trans hk5)
  -- its steps
  refine (f5.good.padSteps bci (cx.table.covering bci) []).bind fun q s6 hs6 => ?_
  obtain ⟨steps, all⟩ := q
  obtain ⟨new, hnew, hrows, hchain, h6, hk6, hblank⟩ := hs6
  rw [nil_append] at hnew
  subst hnew
  refine wp_bind.2 (wp_refuseIf trivial fun _ => ?_)
  refine (h6.padTail bci (.temp ((hk5.evolves.trans hk6.evolves).module.temp hn4)) all).bind fun tail s7 ⟨h7, hk7, htail⟩ => ?_
  have hperm : ((steps.map (·.block)).reverse ++ p :: o.blocks).Perm (p :: ((steps.map (·.block)).reverse ++ o.blocks)) :=
    perm_middle
  have hmem : p ∈ (steps.map (·.block)).reverse ++ p :: o.blocks := mem_append_right _ mem_cons_self
  have f7 := (f5.keeps h6 hperm hk6 mem_cons_self).keeps h7 hperm hk7 hmem
  have hstep {st : PadStep} (hst : st ∈ steps) : st.block ∈ (steps.map (·.block)).reverse :=
    mem_reverse.2 (mem_map_of_mem hst)
  have hblank7 (st : PadStep) (hst : st ∈ steps) : BlankStep s7 bci st.block :=
    (hblank st hst).keeps hk7 (mem_append_left _ (hstep hst))
  have haim := aim_firstOf h7.toGoodModule hblank7 hchain fun ha => (htail ha).1
  refine wp_bind.2 (f7.close (t := .goto (firstOf steps tail)) (by simp) (.inr haim.led) (fun k => haim.target) (fun _ _ _ _ hkind => by simp at hkind) nofun nofun
    fun s8 _ h8 hk8 hh8 => ?_)
  have hrow8 (st : PadStep) (hst : st ∈ steps) : st.row ∈ cx.table := by
    have hin := candidates_subset (hrows ▸ mem_map_of_mem hst)
    exact mem_of_mem_filter hin
  have hperm8 : ((steps.map (·.block)).reverse ++ o.blocks).Perm (steps.map (·.block) ++ o.blocks) :=
    (reverse_perm _).append_right _
  have hright {L : List BlockId} : ∀ c ∈ o.blocks, c ∈ L ++ o.blocks := fun c hc => mem_append_right _ hc
  have hkeep8 : Keeps o.blocks s2 s8 :=
    ((hk3.trans hk4).trans hk5).trans (((hk6.subset fun c hc => mem_cons_of_mem _ hc).trans
      (hk7.subset fun c hc => mem_append_right _ (mem_cons_of_mem _ hc))).trans (hk8.subset hright))
  -- the slot for the exception is counted behind them
  have hdeep := h8.setDepth (d := max o.depth 1) (le_max_of_le_right (Nat.le_max_left _ 1))
  refine wp_bind.2 (wp_rethrow ((hdeep.fillSteps (lt_max_of_lt_right Nat.one_pos) (.temp (hkeep8.evolves.module.temp hn)) hperm8
    (fun st hst => (hblank7 st hst).keeps hk8 (mem_append_left _ (hstep hst))) hrow8
    (hown.mono (hk1.evolves.trans (hk2.evolves.trans hkeep8.evolves))) hchain
    fun ha => ⟨(htail ha).1.mono hk8.evolves, (htail ha).2.mono hk8.evolves⟩).mono fun clauses s9 ⟨hclauses, h9, hk9, hat⟩ => ?_))
  have hkeep9 := hkeep8.trans hk9
  -- its descriptor
  let s10 : State := { s9 with maxStack := max s9.maxStack 1 }
  have hs10 : SameTables s9 s10 := .deepen (Nat.le_max_left _ 1)
  have h10 := (h9.congr hs10).setDepth (d := o.depth)
    (max_le (Nat.le_max_right _ _) (le_max_of_le_left (Nat.le_max_right _ 1)))
  have hp2 := (hk2.blocks p mem_cons_self).trans hb1
  obtain ⟨k, hk, hgrows⟩ := hkeep9.evolves.module.block hp2
  have hnone : k.pad = none := hkeep9.descriptor hp2 hk
  have hh10 := hh8.mono hk9.evolves.module (Terminator.isFinal_goto _) (by simp)
  rw [hrows] at hclauses hat
  generalize (decide (0 < steps.countP (·.row.isCleanup)) || !all) = cleanup
  obtain ⟨h11, he11⟩ := h10.describe (d := ⟨bci, clauses, cleanup⟩) hk hnone (by simp) hh10 rfl fun c hc =>
    h10.toGoodModule.target_clause (hclauses ▸ hc)
  refine wp_bind.2 (wp_modify.2 (wp_bind.2 (wp_changeBlock hk (wp_bind.2 (wp_trace fun rs => ?_)))))
  let s11 : State := s10.change p fun k => { k with pad := some ⟨bci, clauses, cleanup⟩ }
  have hs12 : SameTables s11 { s11 with records := rs } := .put _
  have he12 := he11.trans hs12.evolves
  refine ⟨h11.congr hs12, ?_, ?_, ?_, ?_⟩
  · exact hk1.evolves.trans (hk2.evolves.trans (hkeep9.evolves.trans (hs10.evolves.trans he12)))
  · exact hkeep9.sites.trans (hk2.sites.trans hk1.sites)
  · exact hkeep9.pads.trans (hk2.pads.trans hk1.pads)
  · refine ⟨n, _, _, _, _, firstOf steps tail, cleanup, block?_change_self hk _, hgrows.start,
      hgrows.label.trans (hlabel.trans hname.symm),
      hh10.mono he12.module (Terminator.isFinal_goto _) (by simp), rfl, rfl, rfl, rfl, rfl,
      (hkeep9.evolves.trans (hs10.evolves.trans he12)).module.temp hn, hat.mono (hs10.evolves.trans he12), ?_⟩
    rw [hclauses]
    rfl

theorem PadOk.unwindDest (h : PadOk cx s c b) : s.mod.UnwindDest b := by
  obtain ⟨n, k, token, exc, st, first, cleanup, -, -, -, ⟨k', hk', hkind, -⟩, -⟩ := h
  exact ⟨k', hk', hkind⟩

theorem Good.padOf (h : Good cx o s) (ho : o.pads = []) {site : Site} (hs : site ∈ s.sites ++ o.sites) :
    Wp (cx.padOf site) s fun p s' => Good cx o s' ∧ Evolves s s' ∧ s'.sites = s.sites ∧ (site.bci, p) ∈ s'.pads := by
  refine wp_bind.2 (wp_get.2 ?_)
  cases hl : s.pads.lookup site.bci with
  | some p => exact ⟨h, .refl s, rfl, mem_of_lookup hl⟩
  | none =>
    obtain ⟨hown, ks, hks, hf⟩ := h.sites site hs
    refine (h.buildPad site.bci hown fun {b k} hk hkind hstart => ?_).bind fun p s1 hs1 => ?_
    · -- a landingpad of the bci would have been entered
      rcases h.padBlock hk hkind with hx | hx
      · rw [ho] at hx
        cases hx
      · have hno := lookup_eq_none_iff.1 hl _ hx
        simp [hstart] at hno
    · obtain ⟨h1, he1, hsites, hpads, hok⟩ := hs1
      obtain ⟨k1, hk1, hf1⟩ := hf.evolve he1 hks
      have hg := h1.addPad (hpads ▸ hl) hok ⟨_, k1, hk1, hf1⟩ rfl
      refine ⟨hg, he1.trans (.addPad s1 _ _), hsites, ?_⟩
      exact mem_append_right _ (mem_singleton_self _)

theorem FaultAt.unique (ht : cx.partition.Tiled) {c' : Int} (h : FaultAt cx s k c) (h' : FaultAt cx s k c') : c = c' := by
  unfold FaultAt at h h'
  generalize k.term = t at h h'
  cases t with
  | mayUnwind _ _ =>
    obtain ⟨-, v, i, hv, hi, -, rfl⟩ := h
    obtain ⟨-, v', i', hv', hi', -, rfl⟩ := h'
    obtain rfl := Option.mem_unique hv hv'
    rw [Option.mem_unique hi hi']
  | throw _ _ =>
    obtain ⟨-, i, hi, rfl⟩ := h
    obtain ⟨-, i', hi', rfl⟩ := h'
    rw [hi.unique ht hi']
  | _ => exact h.elim

theorem FaultAt.unwind_withUnwind (h : FaultAt cx s k c) (u : BlockId) : k.term ≠ .none ∧ (k.term.withUnwind u).unwind = u := by
  unfold FaultAt at h
  generalize k.term = t at h
  cases t with
  | mayUnwind _ _ | throw _ _ => exact ⟨nofun, rfl⟩
  | _ => exact h.elim

/-- **A site at hand gets the landingpad of its bci.** -/
theorem Good.attachPad (h : Good cx o s) (ht : cx.partition.Tiled) (ho : o.pads = []) {site : Site} {S : List Site}
    (hS : o.sites = site :: S) :
    Wp (cx.attachPad site) s fun _ s' => Good cx { o with sites := S } s' ∧ Evolves s s' ∧ s'.sites = s.sites := by
  have hin (l : List Site) : site ∈ l ++ o.sites := mem_append_right _ (hS ▸ mem_cons_self)
  refine (h.padOf ho (hin _)).bind fun p s1 ⟨h1, he1, hsites, hp⟩ => ?_
  obtain ⟨-, k, hk, hf⟩ := h1.sites site (hin _)
  obtain ⟨hne, hu⟩ := hf.unwind_withUnwind p
  have hgrows : k.Grows { k with term := k.term.withUnwind p } :=
    ⟨rfl, rfl, rfl, rfl, prefix_rfl, fun _ => ⟨rfl, .unwind _ p⟩, fun _ hd => hd⟩
  refine wp_changeBlock hk ⟨h1.amend hk {
    closed := hne
    grows := hgrows
    term := (h1.block hk).sound.term.withUnwind (h1.pad hp).unwindDest
    pad := (h1.block hk).sound.pad
    sites := fun t ht => hS ▸ mem_cons_of_mem _ ht
    kept := fun t ht hne => ?_
    settled := fun hf' => ?_
    caught := fun _ => ⟨_, hf⟩ }, he1.trans (.of_module rfl (.modifyBlock fun k' hk' => ?_)), hsites⟩
  · rw [hS] at ht
    exact (mem_cons.1 ht).resolve_left fun heq => hne (by rw [heq])
  · rw [hu, hf'.unique ht hf]
    exact .inr hp
  · obtain rfl := Option.mem_unique hk hk'
    exact hgrows

end Bytelift.Lift
