import Bytelift.Proofs.Lift.Instructions
import Bytelift.Proofs.Lift.Twins
import Mathlib.Data.List.Perm.Subperm

/-!
# Lifting methods

The invariant of a lifting holds from the empty module to the finished one. A block is lifted by lifting
its instructions, of which only the last may transfer control. The turns that lift blocks and build
landingpads come to an end, because every turn but every second one lifts a block, and no block is lifted
twice.

Results:
* `Round.works`: **the turns come to an end**.
-/

namespace Bytelift.Lift

open Ir List

variable {cx : Context} {B : CodeBlock} {O : Rest} {s s' s'' : State} {n : Nat} {e : Entry} {D : List Int}
  {bci : Int}

/-! ## A block -/

theorem Ready.moveTo (h : Ready cx B O s) (bci : Int) (hb : (B.start : Int) ≤ bci ∧ bci < B.stop) :
    Ready cx B O { s with cursor := { s.cursor with bci := bci } } :=
  ⟨h.toWorking.congr (.put _) rfl rfl rfl hb, h.stack⟩

/-- Instructions up to the given one are lifted: the cursor stands at it, or it has ended the block. -/
def LiftedTo (cx : Context) (B : CodeBlock) (O : Rest) (i : Instruction) (s s' : State) : Prop :=
  if i.op.falls then Ready cx B O s' ∧ Evolves s s' ∧ s'.cursor.bci = i.bci ∧ s'.cursor.done = s.cursor.done
  else Finishes cx B O s s'

theorem Ready.liftNext (h : Ready cx B O s) {i : Instruction} (hi : i ∈ B.insts)
    (hlast : i.op.falls = false → B.insts.getLast? = some i) :
    Wp (do
      modifyCursor fun c => { c with bci := i.bci }
      refuseIf (!cx.allow.all (·.contains i.op)) i.bci (.notAllowed i.op)
      cx.lift i) s fun _ s' => LiftedTo cx B O i s s' := by
  have hin := h.tiled.mem_insts h.mem hi
  have hb := h.tiled.bounds h.mem i hi
  have hlt := h.tiled.lt_next hin
  have hm := h.moveTo i.bci (by omega)
  have he : Evolves s { s with cursor := { s.cursor with bci := i.bci } } :=
    (SameTables.put _).evolves
  refine wp_bind.2 (wp_modify.2 (wp_bind.2 (wp_refuseIf trivial fun _ => ?_)))
  refine (hm.lift rfl (h.tiled.proper i hin).2 hlast).mono fun _ s' hs' => ?_
  unfold Lifted at hs'
  unfold LiftedTo
  split
  · rename_i hf
    rw [if_pos hf] at hs'
    exact ⟨hs'.ready, he.trans hs'.evolves, hs'.bci, hs'.done⟩
  · rename_i hf
    rw [if_neg hf] at hs'
    exact { hs' with evolves := he.trans hs'.evolves }

/-- **The instructions of a block are lifted.** Only the last may end the block. -/
theorem Ready.liftInstructions (h : Ready cx B O s) :
    Wp (cx.liftInstructions B.insts) s fun _ s' => ∃ i, B.insts.getLast? = some i ∧ LiftedTo cx B O i s s' := by
  obtain ⟨init, last, heq, hinit, -⟩ := (h.tiled.straight B h.mem).split
  have hlast : B.insts.getLast? = some last := by simp [heq]
  unfold Context.liftInstructions
  rw [heq, forM_eq_forM, forM_append]
  -- before the last instruction the block stays open
  refine Wp.bind (P := fun _ s' => Ready cx B O s' ∧ Evolves s s' ∧ s'.cursor.done = s.cursor.done) ?_ ?_
  · refine (wp_forM (I := fun l s' => (Ready cx B O s' ∧ Evolves s s' ∧ s'.cursor.done = s.cursor.done) ∧
      ∀ i ∈ l, i ∈ init) ?_ ⟨⟨h, .refl s, rfl⟩, fun i hi => hi⟩).mono fun _ _ hs => hs.1
    rintro i l s1 ⟨⟨h1, he1, hd1⟩, hl⟩
    obtain ⟨hb, -, hends⟩ := hinit i (hl i mem_cons_self)
    have hf := Opcode.falls_of_straight hb hends
    have hi : i ∈ B.insts := heq ▸ mem_append_left _ (hl i mem_cons_self)
    refine (h1.liftNext hi (by simp [hf])).mono fun _ s2 hs2 => ⟨?_, fun j hj => hl j (mem_cons_of_mem _ hj)⟩
    rw [LiftedTo, if_pos hf] at hs2
    exact ⟨hs2.1, he1.trans hs2.2.1, hs2.2.2.2.trans hd1⟩
  · intro _ s1 hs1
    obtain ⟨h1, he1, hd1⟩ := hs1
    have hi : last ∈ B.insts := by simp [heq]
    rw [forM_cons, forM_nil]
    refine (h1.liftNext hi fun _ => hlast).bind fun _ s2 hs2 => ⟨last, by simp, ?_⟩
    unfold LiftedTo at hs2 ⊢
    split
    · rename_i hf
      rw [if_pos hf] at hs2
      exact ⟨hs2.1, he1.trans hs2.2.1, hs2.2.2.1, hs2.2.2.2.trans hd1⟩
    · rename_i hf
      rw [if_neg hf] at hs2
      exact { hs2 with evolves := he1.trans hs2.evolves }

theorem Finishes.congr (h : Finishes cx B O s s') (hs : SameTables s' s'') (hd : s''.cursor.done = s'.cursor.done) :
    Finishes cx B O s s'' :=
  ⟨h.good.congr hs, h.evolves.trans hs.evolves, hd.trans h.done, h.tail.imp fun _ ⟨last, t, hi, ht⟩ =>
    ⟨last, t, hi, ht.mono hs.evolves (.refl t)⟩⟩

/-- **Control may fall into the next block.** -/
theorem Ready.fallThrough (h : Ready cx B O s) {i : Instruction} (hi : AtLast B s i) (hf : i.op.falls = true) :
    Wp (cx.fallThrough B) s fun _ s' => Finishes cx B O s s' := by
  obtain ⟨init, last, heq, -, hfall⟩ := (h.tiled.straight B h.mem).split
  obtain rfl : last = i := by simpa [heq] using hi.last
  have hends : last.op.endsBlock = false := by
    simpa using (Bool.and_eq_true_iff.1 hf).2
  have hnext : (B.fall.map Int.ofNat).getD (-1) = last.next := by simp [hfall, hends]
  unfold Context.fallThrough
  rw [hnext]
  refine wp_bind.2 (wp_get.2 (wp_bind.2 (wp_rethrow ((h.deep.edge hi (by simp [Instruction.exits_of_falls hf]) h.deep.toWorking.appends.room).mono fun target s1 ⟨ha1, hroute, htar⟩ => ?_))))
  have hjump := (h.deep.appends ha1).jump (hi.mono ha1.proceeds) (.inr rfl) htar
    fun he hp => .fall hp hf (hroute.mono he)
  refine (wp_bind.1 hjump).bind fun _ s2 hs2 => hs2.bind fun _ s3 ⟨hfin, hmax⟩ => wp_trace fun rs => ?_
  exact (((h.deep.advance ha1).finishes hfin).counted (ha1.stack ▸ hmax)).congr (.put _) rfl

/-- The lifting of a bytecode block may begin: its IR block is blank. -/
structure Begins (cx : Context) (B : CodeBlock) (O : Rest) (e : Entry) (s : State) : Prop where
  good : Good cx (O.add (cx.blockOf B.start)).hand s
  tiled : cx.partition.Tiled
  mem : B ∈ cx.partition.blocks
  blank : ∃ k, s.mod.block? (cx.blockOf B.start) = some k ∧ k.insts = #[]
  entry : ((B.start : Int), e) ∈ s.entries
  owner : O.owner = e.owner
  shape : e.shape.length ≤ max s.maxStack O.depth

/-- The state in which the cursor stands at the start of a bytecode block. -/
abbrev State.enter (s : State) (cx : Context) (B : CodeBlock) (e : Entry) : State :=
  { s with cursor := { owner := e.owner, block := cx.blockOf B.start, bci := B.start } }

theorem Begins.ready (h : Begins cx B O e s) : Ready cx B O (s.enter cx B e) := by
  obtain ⟨k, hk, hnil⟩ := h.blank
  obtain ⟨k', hk', hkind, hstart⟩ := h.good.toGoodModule.blockOf h.mem
  obtain rfl := Option.mem_unique hk hk'
  have hs : SameTables s (s.enter cx B e) := .put _
  have hlt : (B.start : Int) < B.stop := by exact_mod_cast h.tiled.start_lt_stop h.mem
  refine ⟨⟨h.good.congr hs, h.tiled, h.mem, ⟨k, hk, ⟨?_, ?_, ?_⟩, fun hv => ?_⟩, ?_, h.owner.symm, e, h.entry, h.owner.symm⟩, by simp⟩
  · rw [hkind]
    rfl
  · exact Int.le_of_eq hstart.symm
  · rwa [hstart]
  · simp [hnil] at hv
  · exact ⟨Int.le_refl _, hlt⟩

/-- **A block is lifted, or refused for a reason that lies in the method.** -/
theorem Begins.liftBlock (h : Begins cx B O e s) : Wp (cx.liftBlock B e) s fun _ s' => Finishes cx B O s s' := by
  have hs : SameTables s (s.enter cx B e) := .put _
  refine wp_bind.2 (wp_modify.2 ((h.ready.reloads h.shape).bind fun _ s1 ⟨ha1, _⟩ => ?_))
  refine ha1.ready.liftInstructions.bind fun _ s2 hs2 => wp_bind.2 (wp_get.2 ?_)
  have he1 : Evolves s s1 := hs.evolves.trans ha1.proceeds.evolves
  obtain ⟨i, hlast, hto⟩ := hs2
  unfold LiftedTo at hto
  by_cases hf : i.op.falls = true
  · rw [if_pos hf] at hto
    obtain ⟨h2, he2, hbci, hdone⟩ := hto
    have hno : s2.cursor.done = false := hdone.trans ha1.proceeds.done
    rw [if_neg (by simp [hno])]
    exact (h2.fallThrough ⟨hlast, hbci⟩ hf).mono fun _ s3 hfin =>
      { hfin with evolves := (he1.trans he2).trans hfin.evolves }
  · rw [if_neg hf] at hto
    rw [if_pos hto.done]
    exact { hto with evolves := he1.trans hto.evolves }

/-! ## Rounds -/

/-- The block at a bci was lifted on the way to a state. -/
def WasLifted (cx : Context) (s : State) (bci : Int) (e : Entry) : Prop :=
  ∃ B O s₀ s₁, (B.start : Int) = bci ∧ Begins cx B O e s₀ ∧ (cx.liftBlock B e).run s₀ = (.ok (), s₁) ∧ Evolves s₁ s

theorem WasLifted.mono (he : Evolves s s') (h : WasLifted cx s bci e) : WasLifted cx s' bci e := by
  obtain ⟨B, O, s0, s1, hB, hb, hrun, he1⟩ := h
  exact ⟨B, O, s0, s1, hB, hb, hrun, he1.trans he⟩

/-- Between two rounds the first `n` scheduled blocks are lifted, and no others; `D` are their bcis. -/
structure Round (cx : Context) (n : Nat) (D : List Int) (s : State) : Prop where
  tiled : cx.partition.Tiled
  good : Good cx { begun := D } s
  begun : ∀ c, c ∈ D ↔ c ∈ (s.entries.take n).map (·.1)
  count : n ≤ s.entries.length
  lifted : ∀ x ∈ s.entries.take n, WasLifted cx s x.1 x.2

theorem take_eq_of_append {α : Type} {l l' : List α} (h : l <+: l') (hn : n ≤ l.length) : l'.take n = l.take n := by
  obtain ⟨t, rfl⟩ := h
  exact take_append_of_le_length hn

theorem Round.evolve (h : Round cx n D s) (he : Evolves s s') (hg : Good cx { begun := D } s') : Round cx n D s' := by
  have htake := take_eq_of_append he.entries h.count
  exact ⟨h.tiled, hg, htake ▸ h.begun, h.count.trans he.entries.length_le,
    fun x hx => (h.lifted x (htake ▸ hx)).mono he⟩

theorem GoodEntries.length_le (h : GoodEntries cx s) : s.entries.length ≤ cx.partition.blocks.length := by
  have hsub : s.entries.map (·.1) ⊆ cx.partition.blocks.map fun B => (B.start : Int) := by
    intro c hc
    obtain ⟨x, hx, rfl⟩ := mem_map.1 hc
    obtain ⟨-, -, B, hB, hs⟩ := h.scheduled hx
    exact mem_map.2 ⟨B, hB, hs⟩
  have hle := (List.Nodup.subperm h.entriesNodup hsub).length_le
  simpa using hle

theorem Round.begins (h : Round cx n D s) (hn : s.entries[n]? = some (bci, e)) :
    ∃ B, (B.start : Int) = bci ∧ cx.partition.blockAt? bci = some B ∧ Begins cx B { begun := bci :: D, owner := e.owner } e s := by
  obtain ⟨-, -, B, hB, rfl⟩ := h.good.scheduled (mem_of_getElem? hn)
  -- the block is not one of those before it
  have hnew : (B.start : Int) ∉ D := by
    rw [h.begun]
    have hnd := h.good.entriesNodup.sublist ((take_sublist (n + 1) s.entries).map (·.1))
    rw [take_add_one, hn, map_append, nodup_append] at hnd
    exact fun hm => hnd.2.2 _ hm _ (mem_singleton_self _) rfl
  obtain ⟨hg0, hblank⟩ := h.good.start hB hnew
  exact ⟨B, rfl, Partition.Tiled.blockAt?_start h.tiled hB, hg0, h.tiled, hB, hblank, mem_of_getElem? hn, rfl,
    h.good.shapes (mem_of_getElem? hn)⟩

/-- **A round lifts the next scheduled block.** -/
theorem Round.liftAt (h : Round cx n D s) (hn : s.entries[n]? = some (bci, e)) :
    Wp (cx.liftAt bci e) s fun _ s' => Round cx (n + 1) (bci :: D) s' ∧ Evolves s s' := by
  obtain ⟨B, rfl, hat, hbegin⟩ := h.begins hn
  have htake : s.entries.take (n + 1) = s.entries.take n ++ [((B.start : Int), e)] := by
    rw [take_add_one, hn]
    rfl
  refine wp_bind.2 (wp_require hat ?_)
  refine hbegin.liftBlock.and_run.mono fun _ s' ⟨hfin, hrun⟩ => ?_
  obtain ⟨hlen, -⟩ := List.getElem?_eq_some_iff.1 hn
  have htake' : s'.entries.take (n + 1) = s.entries.take n ++ [((B.start : Int), e)] :=
    (take_eq_of_append hfin.evolves.entries hlen).trans htake
  refine ⟨⟨h.tiled, hfin.good, fun c => ?_, Nat.le_trans hlen hfin.evolves.entries.length_le,
    fun x hx => ?_⟩, hfin.evolves⟩
  · rw [htake', mem_cons, h.begun]
    simp [or_comm]
  rw [htake'] at hx
  rcases mem_append.1 hx with hx | hx
  · exact (h.lifted x hx).mono hfin.evolves
  · obtain rfl := mem_singleton.1 hx
    exact ⟨B, _, s, s', rfl, hbegin, hrun, .refl s'⟩

/-- **A round gives every waiting site its landingpad.** -/
theorem Round.attachPads (h : Round cx n D s) : Wp (s.sites.forM cx.attachPad) { s with sites := [] } fun _ s' =>
      Round cx n D s' ∧ Evolves s s' ∧ s'.sites = [] := by
  have hloop : Wp (s.sites.forM cx.attachPad) { s with sites := [] } fun _ s' =>
      Good cx { begun := D } s' ∧ Evolves s s' ∧ s'.sites = [] := by
    refine wp_forM (I := fun l s' => Good cx { begun := D, sites := l } s' ∧ Evolves s s' ∧ s'.sites = []) ?_
      ⟨h.good.moveSites (by simp), .setSites s [], rfl⟩
    rintro site l s1 ⟨hg1, he1, hs1⟩
    refine (hg1.attachPad h.tiled rfl rfl).mono fun _ s2 hs2 => ?_
    exact ⟨hs2.1, he1.trans hs2.2.1, hs2.2.2.trans hs1⟩
  exact hloop.mono fun _ s' hs' => ⟨h.evolve hs'.2.1 hs'.1, hs'.2⟩

/-! ## The work list -/

/-- A turn: a scheduled block is lifted, in which sites are found, or the sites that wait get their landingpads. -/
inductive Turn
  | lift (bci : Int) (found : List Site)
  | attach (sites : List Site)

namespace Turn

/-- The block that a turn lifts. -/
def lifted : Turn → List Int
  | lift bci _ => [bci]
  | attach _ => []

/-- The sites that a turn finds. -/
def found : Turn → List Site
  | lift _ sites => sites
  | attach _ => []

/-- The sites that a turn gives their landingpads. -/
def attached : Turn → List Site
  | lift _ _ => []
  | attach sites => sites

end Turn

/-- The turns that lead from one state to another. The first `n` scheduled blocks are lifted before them, and the first
`n'` behind them. -/
inductive Works (cx : Context) : Nat → State → List Turn → Nat → State → Prop
  | nil {n : Nat} {s : State} : Works cx n s [] n s
  | lift {n n' : Nat} {s s₁ s' : State} {bci : Int} {e : Entry} {found turns} (hn : s.entries[n]? = some (bci, e))
    (hrun : (cx.liftAt bci e).run s = (.ok (), s₁)) (hs : s.sites ++ found = s₁.sites)
    (h : Works cx (n + 1) s₁ turns n' s') : Works cx n s (.lift bci found :: turns) n' s'
  | attach {n n' : Nat} {s s₁ s' : State} {turns} (hn : s.entries[n]? = none) (hs : s.sites ≠ [])
    (hrun : (s.sites.forM cx.attachPad).run { s with sites := [] } = (.ok (), s₁)) (h : Works cx n s₁ turns n' s') :
    Works cx n s (.attach s.sites :: turns) n' s'

/-- How the turns end: nothing is left to do, or the next turn is refused. -/
inductive Ends (cx : Context) (n : Nat) (s : State) : Except Bailout Unit × State → Prop
  | done (hn : s.entries[n]? = none) (hs : s.sites = []) : Ends cx n s (.ok (), s)
  | block {bci : Int} {e : Entry} {x} {s' : State} (hn : s.entries[n]? = some (bci, e)) (hrun : (cx.liftAt bci e).run s = (.error x, s')) :
    Ends cx n s (.error x, s')
  | sites {x} {s' : State} (hn : s.entries[n]? = none) (hs : s.sites ≠ [])
    (hrun : (s.sites.forM cx.attachPad).run { s with sites := [] } = (.error x, s')) : Ends cx n s (.error x, s')

/-- Unless sites may be taken, all of them stay. -/
theorem Changes.sites (h : Changes cx False s s') : s.sites <+: s'.sites := by
  induction h with
  | refl => exact prefix_rfl
  | tail _ hc ih =>
    cases hc with
    | sites h => exact ih.trans (h.resolve_right id)
    | _ => exact ih

/-- **The turns come to an end.** The bound on their number is never met: two turns in a row lift a block, unless
the second is the last. -/
theorem Round.works {rounds : Nat} (h : Round cx n D s)
    (hfuel : 2 * (cx.partition.blocks.length - n) + (if s.sites = [] then 0 else 1) < rounds) :
    ∃ turns n' s', Works cx n s turns n' s' ∧ Ends cx n' s' ((cx.liftAll rounds n).run s) := by
  induction rounds generalizing n D s with
  | zero => omega
  | succ rounds ih =>
    rw [Context.run_liftAll]
    cases hn : s.entries[n]? with
    | some x =>
      obtain ⟨bci, e⟩ := x
      obtain ⟨hlt, -⟩ := List.getElem?_eq_some_iff.1 hn
      have hle := h.good.toGoodEntries.length_le
      dsimp only
      rw [run_bind]
      rcases hrun : (cx.liftAt bci e).run s with ⟨x | u, s1⟩
      · exact ⟨[], n, s, .nil, .block hn hrun⟩
      · obtain ⟨found, hfound⟩ := Changes.sites ((Context.twin_liftAt (.refl cx)).ok hrun)
        obtain ⟨turns, n', s', hw, hends⟩ := ih ((h.liftAt hn).of_run hrun).1 (by split at hfuel <;> split <;> omega)
        exact ⟨_, n', s', .lift hn hrun hfound hw, hends⟩
    | none =>
      cases hs : s.sites with
      | nil => exact ⟨[], n, s, .nil, .done hn hs⟩
      | cons site sites =>
        have hne : s.sites ≠ [] := by simp [hs]
        rw [if_neg hne] at hfuel
        dsimp only
        rw [← hs]
        change ∃ turns n' s', Works cx n s turns n' s' ∧
          Ends cx n' s' ((s.sites.forM cx.attachPad >>= fun _ => cx.liftAll rounds n).run { s with sites := [] })
        rw [run_bind]
        rcases hrun : (s.sites.forM cx.attachPad).run { s with sites := [] } with ⟨x | u, s1⟩
        · exact ⟨[], n, s, .nil, .sites hn hne hrun⟩
        · obtain ⟨hr, -, hnil⟩ := h.attachPads.of_run hrun
          obtain ⟨turns, n', s', hw, hends⟩ := ih hr (by rw [if_pos hnil]; omega)
          exact ⟨_, n', s', .attach hn hne hrun hw, hends⟩

/-- **What the turns do**: they lift the blocks in the order in which these are scheduled, and they give the sites their
landingpads in the order in which they find them. -/
theorem Works.spec {turns : List Turn} {n' : Nat} (hw : Works cx n s turns n' s') (h : Round cx n D s) :
    (∃ D', Round cx n' D' s') ∧ Evolves s s' ∧
      (s'.entries.take n').map (·.1) = (s.entries.take n).map (·.1) ++ turns.flatMap Turn.lifted ∧
      s.sites ++ turns.flatMap Turn.found = turns.flatMap Turn.attached ++ s'.sites := by
  induction hw generalizing D with
  | nil => exact ⟨⟨D, h⟩, .refl _, by simp, by simp⟩
  | lift hn hrun hs _ ih =>
    obtain ⟨hr, he⟩ := (h.liftAt hn).of_run hrun
    obtain ⟨hr', he', hlifted, hsites⟩ := ih hr
    obtain ⟨hlt, -⟩ := List.getElem?_eq_some_iff.1 hn
    refine ⟨hr', he.trans he', ?_, by rwa [← hs, append_assoc] at hsites⟩
    rw [hlifted, take_eq_of_append he.entries hlt, take_add_one, hn, map_append, append_assoc]
    rfl
  | attach hn hs hrun _ ih =>
    obtain ⟨hr, he, hnil⟩ := h.attachPads.of_run hrun
    obtain ⟨hr', he', hlifted, hsites⟩ := ih hr
    rw [hnil, nil_append] at hsites
    refine ⟨hr', he.trans he', by rwa [take_eq_of_append he.entries h.count] at hlifted, ?_⟩
    rw [flatMap_cons, flatMap_cons, append_assoc, ← hsites]
    rfl

/-- **Nothing is left to do when the turns are over.** -/
theorem Round.liftAll {rounds : Nat} (h : Round cx n D s)
    (hfuel : 2 * (cx.partition.blocks.length - n) + (if s.sites = [] then 0 else 1) < rounds) :
    Wp (cx.liftAll rounds n) s fun _ s' =>
      ∃ D', Round cx s'.entries.length D' s' ∧ s'.sites = [] ∧ Evolves s s' := by
  obtain ⟨turns, n', s', hw, hends⟩ := h.works hfuel
  obtain ⟨⟨D', hr⟩, he, -⟩ := hw.spec h
  unfold Wp
  generalize (cx.liftAll rounds n).run s = r at hends
  cases hends with
  | done hn hs => exact ⟨D', Nat.le_antisymm hr.count (List.getElem?_eq_none_iff.1 hn) ▸ hr, hs, he⟩
  | block hn hrun => exact (hr.liftAt hn).honest hrun
  | sites _ _ hrun => exact hr.attachPads.honest hrun

end Bytelift.Lift
