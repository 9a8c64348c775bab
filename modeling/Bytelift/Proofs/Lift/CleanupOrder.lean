import Bytelift.Proofs.Lift.Exits
import Mathlib.Data.List.Sort

/-!
# The order of cleanup code

A return runs the cleanup regions that protect it in the order of their first rows in the exception table.
An exception that no row catches runs the regions in the order of their first rows that cover its bci. Both run
the same regions, each of them once. A region with several rows may come first in one order and last in the
other: its first row protects other code and stands in front of the rows of an inner region, while the row that
covers the bci stands behind them.

Results:
* `cleanups_order`: **returns and exceptions run the same regions, and they run them in the same order just
  if the two orders of the rows agree.**
-/

namespace Bytelift

open List

/-! ## First occurrences -/

section First

variable {l l' : List Int} {p : Int → Bool} {a b : Int}

/-- Leaving out elements does not change which of two others comes first. -/
theorem idxOf_filter_lt (ha : p a = true) (hb : p b = true) :
    (l.filter p).idxOf a < (l.filter p).idxOf b ↔ l.idxOf a < l.idxOf b := by
  induction l with
  | nil => simp
  | cons c l ih =>
    by_cases hc : p c = true
    · rw [filter_cons_of_pos hc, idxOf_cons, idxOf_cons, idxOf_cons, idxOf_cons]
      cases hca : c == a <;> cases hcb : c == b <;> simp [ih]
    · have hca : (c == a) = false := beq_eq_false_iff_ne.2 fun h => hc (h ▸ ha)
      have hcb : (c == b) = false := beq_eq_false_iff_ne.2 fun h => hc (h ▸ hb)
      rw [filter_cons_of_neg hc, idxOf_cons, idxOf_cons, hca, hcb]
      simpa using ih

/-- First occurrences come in the order in which they occur. -/
theorem pairwise_eraseDups (l : List Int) : l.eraseDups.Pairwise fun a b => l.idxOf a < l.idxOf b := by
  induction hn : l.length using Nat.strong_induction_on generalizing l with
  | _ n ih =>
    cases l with
    | nil => simp
    | cons c l =>
      have hlen : (l.filter fun b => !b == c).length < n := by
        have := length_filter_le (fun b => !b == c) l
        simp only [length_cons] at hn
        omega
      have hne {b : Int} (hb : b ∈ (l.filter fun b => !b == c).eraseDups) : (!b == c) = true :=
        (mem_filter.1 (mem_eraseDups.1 hb)).2
      have hidx {b : Int} (hb : (!b == c) = true) : (c :: l).idxOf b = l.idxOf b + 1 :=
        idxOf_cons_ne _ fun hc => by simp [hc] at hb
      rw [eraseDups_cons, pairwise_cons]
      refine ⟨fun b hb => ?_, (ih _ hlen _ rfl).imp_of_mem fun {a b} ha hb hlt => ?_⟩
      · rw [idxOf_cons_self, hidx (hne hb)]
        exact Nat.succ_pos _
      · rw [hidx (hne ha), hidx (hne hb)]
        exact Nat.succ_lt_succ ((idxOf_filter_lt (p := fun b => !b == c) (hne ha) (hne hb)).1 hlt)

theorem nodup_of_idxOf (h : l'.Pairwise fun a b => l.idxOf a < l.idxOf b) : l'.Nodup :=
  h.imp fun {a b} (hlt : l.idxOf a < l.idxOf b) (heq : a = b) => absurd (heq ▸ hlt) (Nat.lt_irrefl _)

theorem pairwise_eraseDups_filter (l : List Int) (p : Int → Bool) :
    (l.eraseDups.filter p).Pairwise fun a b => l.idxOf a < l.idxOf b :=
  (pairwise_eraseDups l).filter p

theorem perm_eraseDups_filter (hsub : ∀ a ∈ l', a ∈ l) :
    (l.eraseDups.filter fun a => a ∈ l').Perm l'.eraseDups := by
  refine (perm_ext_iff_of_nodup (nodup_of_idxOf (pairwise_eraseDups_filter l _))
    (nodup_of_idxOf (pairwise_eraseDups l'))).2 fun a => ?_
  simp only [mem_filter, mem_eraseDups, decide_eq_true_eq]
  exact ⟨fun ha => ha.2, fun ha => ⟨hsub a ha, ha⟩⟩

/-- The first occurrences in two lists come in the same order just if no two elements change places. -/
theorem eraseDups_filter_eq_iff (hsub : ∀ a ∈ l', a ∈ l) :
    (l.eraseDups.filter fun a => a ∈ l') = l'.eraseDups ↔
      ∀ a ∈ l', ∀ b ∈ l', l.idxOf a < l.idxOf b → l'.idxOf a < l'.idxOf b := by
  constructor
  · intro heq a ha b hb hlt
    have hboth : l'.eraseDups.Pairwise fun a b => l.idxOf a < l.idxOf b ∧ l'.idxOf a < l'.idxOf b :=
      pairwise_and_iff.2 ⟨heq ▸ pairwise_eraseDups_filter l _, pairwise_eraseDups l'⟩
    obtain ⟨i, hi, rfl⟩ := getElem_of_mem (mem_eraseDups.2 ha)
    obtain ⟨j, hj, rfl⟩ := getElem_of_mem (mem_eraseDups.2 hb)
    rcases Nat.lt_trichotomy i j with hij | rfl | hji
    · exact (pairwise_iff_getElem.1 hboth i j hi hj hij).2
    · exact absurd hlt (Nat.lt_irrefl _)
    · exact absurd (pairwise_iff_getElem.1 hboth j i hj hi hji).1 (Nat.lt_asymm hlt)
  · intro hord
    -- both lists are sorted by the places in the second list
    have hsorted : (l.eraseDups.filter fun a => a ∈ l').Pairwise fun a b => l'.idxOf a < l'.idxOf b := by
      refine (pairwise_eraseDups_filter l _).imp_of_mem fun {a b} ha hb hlt => ?_
      have ha := (mem_filter.1 ha).2
      have hb := (mem_filter.1 hb).2
      exact hord a (of_decide_eq_true ha) b (of_decide_eq_true hb) hlt
    exact (perm_eraseDups_filter hsub).eq_of_pairwise (fun a b _ _ hab hba => absurd hba (Nat.lt_asymm hab)) hsorted
      (pairwise_eraseDups l')

end First

/-- The handlers of the cleanup rows among some rows, in order. -/
def cleanupHandlers (rows : List ExceptionEntry) : List Int := (rows.filter (·.isCleanup)).map (·.handler)

/-- The regions that protect a bci come in the same order by their first rows and by their first rows that cover
the bci. -/
def HandlerTable.Ordered (table : HandlerTable) (bci : Int) : Prop :=
  ∀ h ∈ cleanupHandlers (table.covering bci), ∀ h' ∈ cleanupHandlers (table.covering bci),
    (cleanupHandlers table).idxOf h < (cleanupHandlers table).idxOf h' →
      (cleanupHandlers (table.covering bci)).idxOf h < (cleanupHandlers (table.covering bci)).idxOf h'

instance (table : HandlerTable) (bci : Int) : Decidable (table.Ordered bci) :=
  inferInstanceAs (Decidable (∀ _ ∈ _, ∀ _ ∈ _, _))

namespace Lift

variable {cx : Context} {s : State} {table : HandlerTable} {bci : Int}

/-! ## The order of the regions -/

/-- A new row makes a region if it is the first with its handler. -/
theorem handlers_foldl_addRow (rows : List ExceptionEntry) (rs : List Region) :
    (rows.foldl (fun rs e => addRow rs ⟨.temp, 0⟩ e) rs).map (·.handler) =
      rs.map (·.handler) ++ ((rows.map (·.handler)).filter fun h => !(rs.map (·.handler)).contains h).eraseDups := by
  induction rows generalizing rs with
  | nil => simp
  | cons e rows ih =>
    have hany : rs.any (·.handler = e.handler) = (rs.map (·.handler)).contains e.handler := by
      rw [Bool.eq_iff_iff, any_eq_true, contains_iff_mem, mem_map]
      simp only [decide_eq_true_eq]
    rw [foldl_cons, ih, handlers_addRow, hany, map_cons]
    cases hc : (rs.map (·.handler)).contains e.handler with
    | true => rw [if_pos rfl, filter_cons_of_neg (by simpa using hc)]
    | false =>
      rw [if_neg (by simp), filter_cons_of_pos (by simpa using hc), eraseDups_cons, filter_filter,
        append_assoc]
      refine congrArg (_ ++ ·) (congrArg (e.handler :: ·) (congrArg List.eraseDups (filter_congr fun h _ => ?_)))
      rw [Bool.eq_iff_iff]
      simp [not_or, and_comm]

theorem handlers_cleanups (table : HandlerTable) :
    (cleanups table).map (·.handler) = (cleanupHandlers table).eraseDups := by
  have h := handlers_foldl_addRow (table.filter (·.isCleanup)) []
  simpa [cleanups, cleanupHandlers] using h

theorem rows_foldl_addRow (rows done : List ExceptionEntry) (rs : List Region)
    (hrs : ∀ r ∈ rs, r.rows = done.filter (·.handler = r.handler)) (hdone : ∀ e ∈ done, e.handler ∈ rs.map (·.handler)) :
    ∀ r ∈ rows.foldl (fun rs e => addRow rs ⟨.temp, 0⟩ e) rs, r.rows = (done ++ rows).filter (·.handler = r.handler) := by
  induction rows generalizing rs done with
  | nil => simpa using hrs
  | cons e rows ih =>
    rw [foldl_cons, ← singleton_append, ← append_assoc]
    refine ih (done ++ [e]) _ (fun r hr => ?_) fun e' he' => ?_
    · unfold addRow at hr
      split at hr
      · obtain ⟨r0, hr0, rfl⟩ := mem_map.1 hr
        by_cases hd : r0.handler = e.handler
        · simp [hd, hrs r0 hr0]
        · rw [if_neg hd, hrs r0 hr0]
          simp [Ne.symm hd]
      rename_i hany
      rcases mem_append.1 hr with hr | hr
      · have hd : e.handler ≠ r.handler := fun hd => hany (any_eq_true.2 ⟨r, hr, by simp [hd]⟩)
        simp [hrs r hr, hd]
      obtain rfl := mem_singleton.1 hr
      have hnone : done.filter (·.handler = e.handler) = [] := by
        rw [filter_eq_nil_iff]
        intro e' he' hd
        obtain ⟨r, hr, hh⟩ := mem_map.1 (hdone e' he')
        exact hany (any_eq_true.2 ⟨r, hr, by simpa [hh] using hd⟩)
      simp [filter_append, hnone]
    · obtain ⟨hself, hold⟩ := mem_handlers_addRow rs ⟨.temp, 0⟩ e
      rcases mem_append.1 he' with he' | he'
      · exact hold _ (hdone e' he')
      · exact mem_singleton.1 he' ▸ hself

/-- A region protects a bci just if one of its rows covers it. -/
theorem covers_cleanups {r : Region} (hr : r ∈ cleanups table) :
    r.covers bci = decide (r.handler ∈ cleanupHandlers (table.covering bci)) := by
  have hrows := rows_foldl_addRow (table.filter (·.isCleanup)) [] [] (by simp) (by simp) r hr
  rw [Bool.eq_iff_iff, decide_eq_true_eq, Region.covers, hrows]
  simp only [cleanupHandlers, HandlerTable.covering, nil_append, any_eq_true, mem_filter, mem_map,
    decide_eq_true_eq]
  constructor
  · rintro ⟨e, ⟨⟨he, hc⟩, hh⟩, hb⟩
    exact ⟨e, ⟨⟨he, hb⟩, hc⟩, hh⟩
  · rintro ⟨e, ⟨⟨he, hb⟩, hc⟩, hh⟩
    exact ⟨e, ⟨⟨he, hc⟩, hh⟩, hb⟩

theorem run_buildRegions (cx : Context) (hs : s.regions = []) :
    ∃ s', cx.buildRegions.run s = (.ok (), s') ∧ Forall₂ Region.Alike (cleanups cx.table) s'.regions := by
  have general (rows : List ExceptionEntry) (rs : List Region) (s : State) (h : Forall₂ Region.Alike rs s.regions) :
      ∃ s', (rows.forM fun e => do
        let selector ← temp (selectorName e.handler)
        modify fun s => { s with regions := addRow s.regions selector e } : LiftM Unit).run s = (.ok (), s') ∧
          Forall₂ Region.Alike (rows.foldl (fun rs e => addRow rs ⟨.temp, 0⟩ e) rs) s'.regions := by
    induction rows generalizing rs s with
    | nil => exact ⟨s, rfl, h⟩
    | cons e rows ih => exact ih _ _ (alike_addRow h _ _ e)
  exact general _ [] s (by rw [hs]; exact .nil)

/-- **A return runs the regions that protect it in the order of their first rows.** -/
theorem handlers_buildRegions {rs : List Region} (h : Forall₂ Region.Alike (cleanups table) rs) (bci : Int) :
    (exitedRegions rs bci .ret).map (·.handler) =
      (cleanupHandlers table).eraseDups.filter fun h => h ∈ cleanupHandlers (table.covering bci) := by
  have hleft : exitedRegions (cleanups table) bci .ret =
      (cleanups table).filter ((fun h => decide (h ∈ cleanupHandlers (table.covering bci))) ∘ (·.handler)) := by
    refine filter_congr fun r hr => ?_
    rw [Region.isLeft, Bool.and_true, covers_cleanups hr]
    rfl
  rw [exitedRegions_of_alike h, hleft, ← filter_map, handlers_cleanups]

/-! ## The order of a landingpad -/

theorem cleanupHandlers_candidates {met : List Int} {rows : List ExceptionEntry}
    (hno : ∀ e ∈ rows, e.isCleanup = false → e.catchesAny = false) :
    cleanupHandlers (candidates met rows) = ((cleanupHandlers rows).filter fun h => !met.contains h).eraseDups := by
  fun_induction candidates met rows with
  | case1 => simp [cleanupHandlers]
  | case2 met e rows hc hm ih =>
    rw [ih fun e' he' => hno e' (mem_cons_of_mem _ he')]
    simp [cleanupHandlers, hc, hm]
  | case3 met e rows hc hm ih =>
    have ih := ih fun e' he' => hno e' (mem_cons_of_mem _ he')
    simp only [cleanupHandlers, filter_cons_of_pos hc, map_cons] at ih ⊢
    rw [ih, filter_cons_of_pos (by simpa using hm), eraseDups_cons, filter_filter]
    refine congrArg (e.handler :: ·) (congrArg List.eraseDups (filter_congr fun h _ => ?_))
    rw [Bool.eq_iff_iff]
    simp
  | case4 met e rows hc ha =>
    rw [hno e mem_cons_self (by simpa using hc)] at ha
    cases ha
  | case5 met e rows hc ha ih =>
    have ih := ih fun e' he' => hno e' (mem_cons_of_mem _ he')
    simp only [cleanupHandlers, filter_cons_of_neg hc] at ih ⊢
    exact ih

/-- **A landingpad runs the regions that protect its bci in the order of their first rows that cover it.** -/
theorem metBy_padSteps (table : HandlerTable) (bci : Int) (s : State)
    (hno : ∀ e ∈ table.covering bci, e.isCleanup = false → e.catchesAny = false) :
    ∃ steps all s', (padSteps bci (table.covering bci) []).run s = (.ok (steps, all), s') ∧
      metBy steps = (cleanupHandlers (table.covering bci)).eraseDups := by
  obtain ⟨steps, all, s', hrun, hrows⟩ := run_padSteps bci (table.covering bci) [] s
  refine ⟨steps, all, s', hrun, ?_⟩
  have hmet : metBy steps = cleanupHandlers (steps.map (·.row)) := by
    rw [cleanupHandlers, filter_map, map_map]
    rfl
  have hall : (cleanupHandlers (table.covering bci)).filter (fun h => !(metBy []).contains h) =
      cleanupHandlers (table.covering bci) := filter_eq_self.2 fun _ _ => rfl
  rw [hmet, hrows, cleanupHandlers_candidates hno, hall]

end Lift

open Lift

/-- **Returns and uncaught exceptions run the same cleanup regions, and they run them in the same order just if the
regions come in the same order by their first rows and by their first rows that cover the bci.** This is said of
every state after the regions are set up, as the lifting of the code only adds exits to them. -/
theorem cleanups_order (cx : Context) (bci : Int) (s₀ : State) (hnew : s₀.regions = [])
    (huncaught : ∀ e ∈ cx.table.covering bci, e.isCleanup = false → e.catchesAny = false) :
    ∃ s₁, cx.buildRegions.run s₀ = (.ok (), s₁) ∧
      ∀ s : State, List.Forall₂ Region.Grows s₁.regions s.regions →
        ∃ steps all s', (padSteps bci (cx.table.covering bci) []).run s = (.ok (steps, all), s') ∧
          metBy steps = (cleanupHandlers (cx.table.covering bci)).eraseDups ∧
          ((exitedRegions s.regions bci .ret).map (·.handler)).Perm (metBy steps) ∧
          ((exitedRegions s.regions bci .ret).map (·.handler) = metBy steps ↔ cx.table.Ordered bci) := by
  obtain ⟨s₁, hregions, halike⟩ := run_buildRegions cx hnew
  refine ⟨s₁, hregions, fun s hgrows => ?_⟩
  obtain ⟨steps, all, s', hrun, hmet⟩ := metBy_padSteps cx.table bci s huncaught
  refine ⟨steps, all, s', hrun, hmet, ?_⟩
  rw [handlers_buildRegions (alike_mono halike hgrows), hmet]
  have hsub : ∀ h ∈ cleanupHandlers (cx.table.covering bci), h ∈ cleanupHandlers cx.table := by
    intro h hh
    obtain ⟨e, he, rfl⟩ := List.mem_map.1 hh
    obtain ⟨he, hc⟩ := List.mem_filter.1 he
    exact List.mem_map.2 ⟨e, List.mem_filter.2 ⟨(List.mem_filter.1 he).1, hc⟩, rfl⟩
  exact ⟨perm_eraseDups_filter hsub, eraseDups_filter_eq_iff hsub⟩

/-- Code with two cleanup regions, of which the outer one starts at 8 and the inner one at 9. -/
def nestedCleanup : Method :=
  { owner := "T", name := "f", desc := "(I)V", isStatic := true
    maxStack := 1, maxLocals := 1, code := [0x00, 0x1a, 0x9a, 0x00, 0x04, 0xb1, 0x01, 0xbf, 0xcb, 0xcb]
    exceptions := [{ start := 1, stop := 8, handler := 9, isCleanup := true },
      { start := 1, stop := 8, handler := 8, isCleanup := true }] }

theorem nestedCleanup_order : ∃ cx s₁ steps all s', Lift.context nestedCleanup {} = .ok cx ∧
    cx.buildRegions.run { builder := Ir.Builder.new nestedCleanup.key } = (.ok (), s₁) ∧
    (padSteps 5 (cx.table.covering 5) []).run s₁ = (.ok (steps, all), s') ∧
    (exitedRegions s₁.regions 5 .ret).map (·.handler) = metBy steps ∧ metBy steps = [9, 8] := by
  have hcontext : ((Lift.context nestedCleanup {}).toOption.any fun cx => cx.table.Ordered 5 &&
      (cleanupHandlers (cx.table.covering 5)).eraseDups = [9, 8] &&
      (cx.table.covering 5).all fun e => e.isCleanup = false → e.catchesAny = false) = true := by
    decide +kernel
  obtain ⟨cx, hcx, hrest⟩ := exists_ok_of_any hcontext
  simp only [Bool.and_eq_true, decide_eq_true_eq, List.all_eq_true] at hrest
  obtain ⟨⟨hord, hrows⟩, hno⟩ := hrest
  obtain ⟨s₁, hregions, hall⟩ := cleanups_order cx 5 { builder := Ir.Builder.new nestedCleanup.key } rfl hno
  obtain ⟨steps, all, s', hrun, hmet, -, heq⟩ := hall s₁ (List.forall₂_same.2 fun r _ => .refl r)
  exact ⟨cx, s₁, steps, all, s', hcx, hregions, hrun, heq.2 hord, hmet.trans hrows⟩

/-- The same code where the outer region protects the first instruction too, by a row of its own in front. -/
def splitCleanup : Method :=
  { nestedCleanup with
    exceptions := { start := 0, stop := 1, handler := 8, isCleanup := true } :: nestedCleanup.exceptions }

/-- **A return may run the outer region before the inner one.** -/
theorem splitCleanup_order : ∃ mod cx s₁ steps all s', liftMethod splitCleanup {} = .ok mod ∧
    Lift.context splitCleanup {} = .ok cx ∧ (∀ e ∈ cx.table.covering 5, e.isCleanup = true) ∧
    cx.buildRegions.run { builder := Ir.Builder.new splitCleanup.key } = (.ok (), s₁) ∧
    (exitedRegions s₁.regions 5 .ret).map (·.handler) = [8, 9] ∧
    (padSteps 5 (cx.table.covering 5) []).run s₁ = (.ok (steps, all), s') ∧ metBy steps = [9, 8] := by
  have hlifted : (Lift.lifts splitCleanup fun _ cx =>
      (cx.table.covering 5).all (·.isCleanup) && (cleanupHandlers (cx.table.covering 5)).eraseDups = [9, 8] &&
      (cleanupHandlers cx.table).eraseDups.filter (fun h => h ∈ cleanupHandlers (cx.table.covering 5)) = [8, 9]) = true := by
    decide +kernel
  obtain ⟨mod, cx, hmod, hcx, hlifted⟩ := Lift.exists_of_lifts hlifted
  simp only [Bool.and_eq_true, decide_eq_true_eq, List.all_eq_true] at hlifted
  obtain ⟨⟨hcleanup, hnear⟩, hwhole⟩ := hlifted
  obtain ⟨s₁, hregions, halike⟩ := run_buildRegions (s := { builder := Ir.Builder.new splitCleanup.key }) cx rfl
  obtain ⟨steps, all, s', hrun, hmet⟩ := metBy_padSteps cx.table 5 s₁ fun e he hno => by
    rw [hcleanup e he] at hno
    cases hno
  exact ⟨mod, cx, s₁, steps, all, s', hmod, hcx, hcleanup, hregions, (handlers_buildRegions halike 5).trans hwhole, hrun,
    hmet.trans hnear⟩

end Bytelift
