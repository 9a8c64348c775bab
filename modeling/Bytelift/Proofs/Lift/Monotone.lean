import Bytelift.Proofs.Lift.Invariant

/-!
# What evolves stays true

Each part of the invariant that speaks of one block or one table entry is monotone along `Evolves`.
-/

namespace Bytelift.Lift

open Ir List Terminator

section

variable {cx : Context} {s s' : State} {b : BlockId} {k : Block} {t t' : Terminator} {exit : Exit} {last : Option ValueId}
  {v : ValueId} {c : Int} {caught : Slot} {V V' : Option Int → Prop}

/-- Which regions a transfer leaves is said by their rows. -/
theorem exitedRegions_of_alike {rs rs' : List Region} (h : Forall₂ Region.Alike rs rs') (source : Int) (exit : Exit) :
    (exitedRegions rs' source exit).map (·.handler) = (exitedRegions rs source exit).map (·.handler) := by
  unfold exitedRegions
  induction h with
  | nil => rfl
  | @cons r r' l l' hr _ ih =>
    have hleft : r'.isLeft source exit = r.isLeft source exit := by
      simp only [Region.isLeft, Region.covers, hr.rows]
    rw [filter_cons, filter_cons, hleft]
    split
    · rw [map_cons, map_cons, hr.handler, ih]
    · exact ih

theorem leftHandlers_eq (hg : GoodRegions cx s) (source : Int) (exit : Exit) :
    leftHandlers cx.table source exit = (exitedRegions s.regions source exit).map (·.handler) :=
  (exitedRegions_of_alike hg.alike source exit).symm

theorem Known.mono (he : Evolves s s') {owner : Owner} (h : Known s owner) : Known s' owner := by
  intro x hx
  obtain ⟨r, hr, rfl⟩ := h x hx
  obtain ⟨r', hr', hg⟩ := he.region hr
  exact ⟨r', hr', hg.handler⟩

theorem Scheduled.mono (he : Evolves s s') {bci : Int} (h : Scheduled s bci) : Scheduled s' bci := by
  obtain ⟨e, h⟩ := h
  exact ⟨e, he.entries.subset h⟩

theorem Led.mono (he : Evolves s s') {x : BlockId} (h : Led cx s x) : Led cx s' x :=
  fun B hB hx => (h B hB hx).mono he

theorem Aim.mono (he : Evolves s s') {x : BlockId} (h : Aim cx s x) : Aim cx s' x := ⟨h.target.mono he.module, h.led.mono he⟩

theorem Entered.mono (he : Evolves s s') {bci : Int} {shape : List Ty} (h : Entered s bci shape) :
    Entered s' bci shape := by
  obtain ⟨e, h, hs⟩ := h
  exact ⟨e, he.entries.subset h, hs⟩

section

variable (he : Evolves s s')

include he

theorem Owned.mono {T : Int} (h : Owned V T s) (hV : ∀ x, V x → V' x) : Owned V' T s' := by
  obtain ⟨e, hlookup, hv⟩ := h
  refine ⟨e, ?_, hV _ hv⟩
  obtain ⟨l, hl⟩ := he.entries
  rw [← hl, lookup_append, hlookup]
  rfl

theorem RouteFrom.mono {hs : List Int} (h : RouteFrom cx s V exit hs b) (hV : ∀ x, V x → V' x) :
    RouteFrom cx s' V' exit hs b := by
  cases hs with
  | cons x hs => exact he.leaves.subset h
  | nil =>
    cases exit with
    | jump t => exact ⟨h.1, h.2.mono he hV⟩
    | ret => exact he.ret h

theorem JumpsThrough.mono {T x : Int} {o : Option Int} (h : JumpsThrough cx s T x o) : JumpsThrough cx s' T x o := by
  obtain ⟨source, ⟨bci, e, i, hmem, hrest⟩, hlast⟩ := h
  exact ⟨source, ⟨bci, e, i, he.entries.subset hmem, hrest⟩, hlast⟩

theorem exited_handlers (source : Int) (exit : Exit) :
    (exitedRegions s'.regions source exit).map (·.handler) =
      (exitedRegions s.regions source exit).map (·.handler) :=
  exitedRegions_of_alike (he.regions.imp fun _ _ h => ⟨h.handler, h.rows⟩) source exit

theorem Route.mono {source : Int} {o : Option Int} (h : Route cx s o source exit b) : Route cx s' o source exit b := by
  unfold Route at h ⊢
  rw [exited_handlers he]
  exact h.mono he fun _ hx => hx

theorem exited_eq_nil {source : Int} :
    exitedRegions s'.regions source exit = [] ↔ exitedRegions s.regions source exit = [] := by
  rw [← map_eq_nil_iff, exited_handlers he, map_eq_nil_iff]

theorem Enters.mono {kind : BlockKind} {h : Int} {next : BlockId}
    (hent : Enters cx s kind b h next) : Enters cx s' kind b h next := by
  obtain ⟨r, hr, hh, key, i, j, hexit, hholds, h1, h2, h3, h4, h5⟩ := hent
  obtain ⟨r', hr', hg⟩ := he.region hr
  have hkey : r'.exits[key]? = some next := by
    obtain ⟨l, hl⟩ := hg.exits
    rw [← hl, getElem?_append_left (List.getElem?_eq_some_iff.1 hexit).1, hexit]
  exact ⟨r', hr', hg.handler.trans hh, key, i, j, hkey,
    hholds.mono he.module (isFinal_goto _) (by simp), h1, h2, h3, h4.trans hg.selector.symm, h5⟩

theorem Leaves.mono {h : Int} {hs : List Int} (hl : Leaves cx s exit h hs b) : Leaves cx s' exit h hs b := by
  obtain ⟨next, hent, hroute⟩ := hl
  exact ⟨next, hent.mono he, hroute.mono he fun _ hv hnil T hT => (hv hnil T hT).mono he⟩

theorem LoopBlock.mono (h : LoopBlock s b) : LoopBlock s' b := by
  obtain ⟨k, hk, hkind⟩ := h
  obtain ⟨k', hk', hg⟩ := he.module.block hk
  exact ⟨k', hk', hg.kind.trans hkind⟩

end

theorem Passes.completes {x : BlockId} (h : Passes t x) (hc : t.Completes t') : Passes t' x := by
  rcases h with rfl | rfl | ⟨u, rfl⟩
  · exact .inl (isFinal_goto x t' hc)
  · cases hc
    exact .inr (.inl rfl)
  · exact .inr (.inr hc.mayUnwind)

theorem Saves.mono (he : Evolves s s') (h : Saves s last) : Saves s' last := by
  obtain ⟨v, a, j, n, hv, hj, hop, hslot, hargs, hn⟩ := h
  exact ⟨v, a, j, n, hv, he.module.inst hj, hop, hslot, hargs, he.module.temp hn⟩

theorem Tail.mono (he : Evolves s s') {o : Option Int} {i : Instruction}
    (hc : t.Completes t') (h : Tail cx s o i last t) : Tail cx s' o i last t' := by
  cases h with
  | jump hp hop h => exact .jump (hp.completes hc) hop (h.mono he)
  | fall hp hop h => exact .fall (hp.completes hc) hop (h.mono he)
  | branch hop h h' =>
    cases hc
    exact .branch hop (h.mono he) (h'.mono he)
  | @switch v d cs table hop hs hcs hd hne =>
    have hcs' := hcs.imp fun _ _ hx => And.imp_right (Route.mono he) hx
    rcases hc.switch with rfl | ⟨rfl, -⟩
    · exact .switch hop hs hcs' (hd.mono he) hne
    · exact absurd rfl hne
  | ret hop h =>
    cases hc
    exact .ret hop ((exited_eq_nil he).2 h)
  | leave hp hop hne h hres =>
    exact .leave (hp.completes hc) hop (fun h0 => hne ((exited_eq_nil he).1 h0)) (h.mono he) fun hv => (hres hv).mono he
  | throw hop =>
    cases hc
    exact .throw hop
  | finish hop =>
    rcases hc.switch with rfl | ⟨-, cs', rfl⟩
    · exact .finish hop
    · exact .finish hop

theorem Tail.ne_unreachable {o : Option Int} {i : Instruction} (h : Tail cx s o i last t) : t ≠ .unreachable := by
  rintro rfl
  cases h with
  | jump hp | fall hp | leave hp => rcases hp with hp | hp | ⟨u, hp⟩ <;> cases hp

theorem CodeTerm.mono (he : Evolves s s') {start : Int}
    (hc : t.Completes t') (h : CodeTerm cx s b start last t) : CodeTerm cx s' b start last t' := by
  cases h with
  | split h =>
    obtain ⟨u', rfl⟩ := hc.mayUnwind
    exact .split (h.mono he.module)
  | enter h =>
    cases hc
    exact .enter (h.mono he)
  | loop h h' =>
    cases hc
    exact .loop (h.mono he) (h'.mono he)
  | tail hi h => exact .tail hi (h.mono he hc)
  | idle =>
    cases hc
    exact .idle

section

variable {L L' : BlockId → Prop} (h : Steers L t)

include h

theorem Steers.isFinal : t.IsFinal := by
  intro t' hc
  cases hc with
  | unwind _ u => cases t <;> first | rfl | exact h.elim
  | cases => exact h.elim

theorem Steers.mono (hL : ∀ x, L x → L' x) : Steers L' t := by
  cases t with
  | goto x | fallthrough x => exact hL x h
  | condBr v x y => exact h.imp (hL x) (hL y)
  | _ => exact h

theorem Steers.unwind : t.unwind = noBlock := by
  cases t <;> first | rfl | exact h.elim

theorem Steers.isThrow : t.isThrow = false := by
  cases t <;> first | rfl | exact h.elim

theorem Steers.ne_mayUnwind (x u : BlockId) : t ≠ .mayUnwind x u := by
  rintro rfl
  exact h

theorem Steers.ne_switch (x : BlockId) (cs : List SwitchCase) : t ≠ .switch v x cs := by
  rintro rfl
  exact h

theorem Steers.ne_unreachable : t ≠ .unreachable := by
  rintro rfl
  exact h

theorem Steers.not_faultAt : ¬ FaultAt cx s { k with term := t } c := by
  cases t <;> first | exact id | exact h.elim

end

theorem Leads.of_none {o : Hand} (h : k.term = .none) : Leads cx o s b k := by
  unfold Leads
  rw [h]
  exact ⟨nofun, fun _ => trivial⟩

theorem Leads.mono {o o' : Hand} {k' : Block} (h : Leads cx o s b k) (he : Evolves s s') (hkind : k'.kind = k.kind)
    (hc : k.term.Completes k'.term) (ha : o'.ahead = o.ahead) (hi : o'.idle = o.idle) : Leads cx o' s' b k' := by
  unfold Leads
  rw [hkind, ha, hi]
  refine ⟨fun ht => h.1 ?_, fun hp => ?_⟩
  · generalize k.term = t at hc
    rw [ht] at hc
    generalize hu : Terminator.unreachable = t' at hc
    cases hc with
    | unwind t u => cases t <;> first | rfl | cases hu
    | cases => cases hu
  · rw [(h.2 hp).isFinal _ hc]
    exact (h.2 hp).mono fun x hx => hx.imp_right (Led.mono he)

/-- The rule for a store stays true while its block grows. -/
theorem StoreOk.mono (he : Evolves s s') {k' : Block} {slot : Slot} (hkind : k'.kind = k.kind)
    (hstart : k'.start = k.start) (hterm : k.term = .none → k'.term = .none) (h : StoreOk cx s b k slot) :
    StoreOk cx s' b k' slot := by
  cases h with
  | selector hs hn hk h =>
    refine .selector hs (he.module.temp hn) (hkind ▸ hk) (h.imp hterm ?_)
    rintro ⟨next, hent⟩
    exact ⟨next, hkind ▸ hent.mono he⟩
  | caught hs hn hk hc => exact .caught hs (he.module.temp hn) (hkind.trans hk) (hstart.trans hc)
  | other hs hn hsel hexc => exact .other hs (he.module.temp hn) hsel hexc

theorem Lawful.inst_of_mem (h : Lawful cx s b k) (hv : v ∈ k.insts) : ∃ i, s.mod.inst? v = some i := by
  obtain ⟨before, after, heq⟩ := append_of_mem (Array.mem_toList_iff.2 hv)
  obtain ⟨i, hi, -⟩ := h.sound.inst heq
  exact ⟨i, hi⟩

theorem Lawful.inst_of_grows (h : Lawful cx s b k) {m : Module} (hg : s.mod.Grows m) (hv : v ∈ k.insts) {i : Inst}
    (hi : m.inst? v = some i) : s.mod.inst? v = some i := by
  obtain ⟨j, hj⟩ := h.inst_of_mem hv
  rwa [Option.mem_unique (hg.inst hj) hi] at hj

theorem FaultAt.mono (he : Evolves s s') (h : FaultAt cx s k c) : FaultAt cx s' k c := by
  unfold FaultAt at h ⊢
  split at h
  · obtain ⟨hp, v, i, hv, hi, hrest⟩ := h
    exact ⟨hp, v, i, hv, he.module.inst hi, hrest⟩
  · exact h
  · exact h

/-- Completing a terminator does not change where a block may fault. -/
theorem faultAt_amend {k' : Block} (hg : k.Grows k') (ht : k.term ≠ .none) : FaultAt cx s k' c ↔ FaultAt cx s k c := by
  obtain ⟨hi, hc⟩ := hg.closed ht
  unfold FaultAt
  rw [hi, hg.start]
  generalize k.term = t at hc
  generalize k'.term = t' at hc
  cases hc with
  | unwind _ u => cases t <;> rfl
  | cases v cs cs' => rfl

theorem FaultAt.ne_none (h : FaultAt cx s k c) : k.term ≠ .none := by
  intro ht
  unfold FaultAt at h
  rw [ht] at h
  exact h

theorem FaultAt.evolve (he : Evolves s s') (hk : s.mod.block? b = some k) (h : FaultAt cx s k c) :
    ∃ k', s'.mod.block? b = some k' ∧ FaultAt cx s' k' c := by
  obtain ⟨k', hk', hg⟩ := he.module.block hk
  exact ⟨k', hk', (faultAt_amend hg h.ne_none).2 (h.mono he)⟩

theorem NonZero.mono {m m' : Module} (hg : m.Grows m') {before : List ValueId} {d : ValueId} (h : NonZero m b before d) :
    NonZero m' b before d := by
  obtain ⟨g, j, hknown, hj, hrest⟩ := h
  exact ⟨g, j, hknown.imp_right (Module.AvailAbove.mono hg), hg.inst hj, hrest⟩

section

variable (he : Evolves s s')

include he

theorem Lawful.mono (h : Lawful cx s b k) : Lawful cx s' b k where
  sound := h.sound.mono he.module
  fault hk hi ho hp := by
    obtain ⟨j, hj, -⟩ := h.sound.inst hk
    obtain rfl := Option.mem_unique (he.module.inst hj) hi
    exact h.fault hk hj ho hp
  store hv hi ho hsp := by
    exact (h.store hv (h.inst_of_grows he.module hv hi) ho hsp).mono he rfl rfl id
  nodup := h.nodup
  divisor hk hi hdiv := by
    obtain ⟨j, hj, -⟩ := h.sound.inst hk
    obtain rfl := Option.mem_unique (he.module.inst hj) hi
    obtain ⟨a, d, hargs, hd⟩ := h.divisor hk hj hdiv
    exact ⟨a, d, hargs, hd.mono he.module⟩
  split ht := (h.split ht).imp fun _ hf => hf.mono he
  caught hu := (h.caught hu).imp fun _ hf => hf.mono he
  throws := h.throws
  code hk ht := (h.code hk ht).mono he (.refl _)

theorem Delivers.mono {tests : List Inst}
    (hf : t.IsFinal) (ht : t ≠ .none) (h : Delivers s b caught tests v t) :
    Delivers s' b caught tests v t := by
  obtain ⟨i, j, hh, hrest⟩ := h
  exact ⟨i, j, hh.mono he.module hf ht, hrest⟩

theorem Tries.mono {e : ExceptionEntry} {next : BlockId}
    (h : Tries cx s caught e b next) : Tries cx s' caught e b next := by
  cases h with
  | cleanup hc h hs => exact .cleanup hc (h.mono he) (hs.mono he)
  | test hc ha h hop hsym hargs hs =>
    exact .test hc ha (h.mono he (isFinal_condBr _ _ _) (by simp)) hop hsym hargs (hs.mono he)

theorem Attempts.mono {rows : List ExceptionEntry}
    (h : Attempts cx s caught rows b) : Attempts cx s' caught rows b := by
  induction h with
  | resume h hop hslot =>
    exact .resume (h.mono he.module (isFinal_resume _) (by simp)) hop hslot
  | step h _ ih => exact .step (h.mono he) ih
  | catchAny hc ha h hs =>
    exact .catchAny hc ha (h.mono he (isFinal_goto _) (by simp)) (hs.mono he)

theorem PadOk.mono (h : PadOk cx s c b) : PadOk cx s' c b := by
  obtain ⟨n, k, token, exc, st, first, cleanup, hk, hstart, hlabel, hh, h1, h2, h3, h4, h5, hn, hat, hpad⟩ := h
  obtain ⟨k', hk', hg⟩ := he.module.block hk
  exact ⟨n, k', token, exc, st, first, cleanup, hk', hg.start.trans hstart, hg.label.trans hlabel,
    hh.mono he.module (isFinal_goto _) (by simp), h1, h2, h3, h4, h5, he.module.temp hn,
    hat.mono he, hg.pad _ hpad⟩

theorem Returns.mono (h : Returns cx s b) : Returns cx s' b := by
  rcases h with ⟨hv, hh⟩ | ⟨i, n, hv, hh, hop, hslot, hn⟩
  · exact .inl ⟨hv, hh.mono he.module (isFinal_ret _) (by simp)⟩
  · exact .inr ⟨i, n, hv, hh.mono he.module (isFinal_ret _) (by simp), hop, hslot, he.module.temp hn⟩

theorem EndOk.mono {r r' : Region} (hg : r.Grows r') (h : EndOk s r b v) : EndOk s' r' b v := by
  obtain ⟨k, i, cs, hk, hv, hi, hop, hslot, ht⟩ := h
  obtain ⟨k', hk', -, -, hinsts, hc, -⟩ := he.module.closed hk (by rw [ht]; simp)
  have hterm : ∃ cs', k'.term = .switch v noBlock cs' := by
    rw [ht] at hc
    rcases hc.switch with h | ⟨-, h⟩
    · exact ⟨cs, h⟩
    · exact h
  obtain ⟨cs', ht'⟩ := hterm
  exact ⟨k', i, cs', hk', hinsts ▸ hv, he.module.inst hi, hop, hslot.trans hg.selector.symm, ht'⟩

end

end

theorem Region.Alike.grows {r r' r'' : Region} (h : r.Alike r') (hg : r'.Grows r'') : r.Alike r'' :=
  ⟨hg.handler.trans h.handler, hg.rows.trans h.rows⟩

theorem alike_mono {rs rs' rs'' : List Region} (h : Forall₂ Region.Alike rs rs')
    (hg : Forall₂ Region.Grows rs' rs'') : Forall₂ Region.Alike rs rs'' := forall₂_trans h hg .grows

end Bytelift.Lift
