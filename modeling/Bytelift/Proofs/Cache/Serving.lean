import Bytelift.Broker
import Bytelift.Proofs.Lift.Topology
import Mathlib.Logic.Function.Basic

/-!
# Served requests

A broker answers from a store where it can. Nothing is assumed of the store but that a look-up finds the module that was last added
for its key, or nothing (`Recalls`): when modules are dropped does not matter. `Backed` is the invariant of a run of requests: what was
last added for a key is the module of a request that was served before. So an answer depends on its own request only, as long as methods
with equal keys are lifted alike, and a store never gives back a module that no lifting gave.

Results:
* `Broker.serve_transparent`: **what a request gets does not depend on the requests before it**.
-/

namespace Bytelift

open List CacheKey

variable {mod : Ir.Module}

/-! ## Listings are not empty -/

namespace Ir

variable {m : Module} {i : Inst}

theorem operandText?_isSome (halloc : i.op = .allocObject ∨ i.op = .allocArray → i.alloc.isSome = true)
    (hcall : i.op = .call → ∃ c, i.call = some c ∧ (c.dispatch.isBound = false → i.args ≠ [])) (hslot : 0 ≤ i.slot.index) :
    (m.operandText? i).isSome = true := by
  have hname : (m.slotName? i.slot).isSome = true := by
    unfold Module.slotName?
    split
    · rfl
    · rfl
    · split
      · rename_i hlt
        obtain ⟨t, ht⟩ := exists_lookup? hslot hlt
        rw [ht]
        rfl
      · rfl
  unfold Module.operandText?
  cases hop : i.op with
  | loadSlot => exact hname
  | storeSlot => simpa using hname
  | allocObject => simpa using halloc (.inl hop)
  | allocArray => simpa using halloc (.inr hop)
  | call =>
    obtain ⟨c, hc, hargs⟩ := hcall hop
    cases hbound : c.dispatch.isBound with
    | true => simp [callText?, hc, hbound]
    | false =>
      obtain ⟨v, rest, heq⟩ := exists_cons_of_ne_nil (hargs hbound)
      simp [callText?, hc, hbound, heq]
  | _ => rfl

theorem Module.dump_ne_nil (hsound : m.Sound) (hlabel : ∀ k ∈ m.blocks.toList, PlainLabel k.label)
    (hinst : ∀ v i, m.inst? v = some i → (m.operandText? i).isSome = true) : m.dump ≠ [] := by
  have hblock : ∀ k ∈ m.blocks.toList, ∃ ls, m.blockLines? k = some ls := by
    intro k hk
    obtain ⟨b, hk⟩ := Module.mem_blocks_iff.1 hk
    have htext : ∀ v ∈ k.insts.toList, ∃ t, m.textAt? v = some t ∧ True := by
      intro v hv
      obtain ⟨before, after, hsplit⟩ := append_of_mem hv
      obtain ⟨i, hi, -⟩ := (hsound.block hk).inst hsplit
      obtain ⟨t, ht⟩ := Option.isSome_iff_exists.1 (hinst v i hi)
      exact ⟨_, by simp [Module.textAt?, hi, Module.instText?, ht]; rfl, trivial⟩
    obtain ⟨ts, hts, -⟩ := exists_mapM htext
    obtain ⟨t, ht, -⟩ := termText?_some hlabel fun _ he hne => (hsound.block hk).term.edge he hne
    cases hd : k.pad with
    | none => exact ⟨_, Module.blockLines?_plain hd hts ht⟩
    | some d =>
      have hclause : ∀ c ∈ d.clauses, ∃ t, m.clauseText? c = some t ∧ True := by
        intro c hc
        obtain ⟨k', hk', -⟩ := ((hsound.block hk).pad hd).2 c hc
        exact ⟨_, clauseText?_eq hk', trivial⟩
      obtain ⟨cs, hcs, -⟩ := exists_mapM hclause
      cases ts with
      | nil => exact ⟨[k.label ++ ":", "  " ++ t], by unfold Module.blockLines?; rw [Module.mapM_indented hts, ht, hd]; rfl⟩
      | cons t0 ts => exact ⟨_, Module.blockLines?_pad hd hts hcs ht⟩
  obtain ⟨lss, hlss, -⟩ := exists_mapM fun k hk => (hblock k hk).imp fun ls hls => (⟨hls, trivial⟩ : _ ∧ True)
  unfold Module.dump Module.dump? Module.lines?
  rw [hlss]
  exact cons_ne_nil _ _

end Ir

open Lift in
theorem liftMethod_dump_ne_nil {m : Method} {settings : Settings} (h : liftMethod m settings = .ok mod) : mod.dump ≠ [] := by
  obtain ⟨cx, hcx⟩ := exists_context h
  obtain ⟨s, hfin, hw, rfl⟩ := liftMethod_written h hcx
  refine Ir.Module.dump_ne_nil hfin.sound hw.plain fun v i hi => ?_
  obtain ⟨hemitted, hslot⟩ := hw.inst v i hi
  refine Ir.operandText?_isSome (fun hop => ?_) hemitted.call hslot
  obtain ⟨a, ha, -⟩ := hemitted.alloc hop
  exact Option.isSome_iff_exists.2 ⟨a, ha⟩

theorem liftMethod_frozen {m : Method} {settings : Settings} (h : liftMethod m settings = .ok mod) : mod.frozen = true := by
  obtain ⟨cx, hcx⟩ := Lift.exists_context h
  obtain ⟨-, -, -, -, -, hfrozen⟩ := Lift.liftMethod_ends h hcx
  exact hfrozen

/-! ## Stores -/

namespace ModuleStore

variable {C : Type} [ModuleStore C]

/-- The stores that look-ups and additions make out of a first one, with the module that was last added for each key. -/
inductive Reaches (first : C) : C → (CacheKey → Option Ir.Module) → Prop
  | start : Reaches first first fun _ => none
  | get {c : C} {last} (k : CacheKey) : Reaches first c last → Reaches first (ModuleStore.get c k).2 last
  | add {c : C} {last} (k : CacheKey) {m : Ir.Module} : m.frozen = true → Reaches first c last →
      Reaches first (ModuleStore.add c k m) (Function.update last k (some m))

/-- A look-up finds what was last added for the key, or nothing. -/
def Recalls (first : C) : Prop :=
  ∀ {c : C} {last : CacheKey → Option Ir.Module}, Reaches first c last → ∀ k,
    (ModuleStore.get c k).1 = none ∨ (ModuleStore.get c k).1 = last k

end ModuleStore

namespace ModuleCache

variable {c : ModuleCache} {k k' : CacheKey} {m : Ir.Module} {last : CacheKey → Option Ir.Module}

theorem mem_of_lookup {l : List (CacheKey × Ir.Module)} (h : l.lookup k = some m) : (k, m) ∈ l := by
  obtain ⟨before, after, rfl, -⟩ := lookup_eq_some_iff.1 h
  simp

/-- What a cache holds was added last. -/
def Within (c : ModuleCache) (last : CacheKey → Option Ir.Module) : Prop := ∀ p ∈ c.items, last p.1 = some p.2

theorem Within.erase (h : c.Within last) (k : CacheKey) : (c.erase k).Within last :=
  fun p hp => h p (mem_of_mem_filter hp)

theorem Within.get (h : c.Within last) (k : CacheKey) : (c.get k).2.Within last := by
  unfold ModuleCache.get
  split
  · exact h
  rename_i m hm
  intro p hp
  rcases mem_cons.1 hp with rfl | hp
  · exact h (k, m) (mem_of_lookup hm)
  · exact h.erase k p hp

theorem Within.add (h : c.Within last) (k : CacheKey) (hm : m.frozen = true) : (c.add k m).Within (Function.update last k (some m)) := by
  -- an item other than the new one has another key
  have other {p : CacheKey × Ir.Module} (hp : p ∈ c.items) (hne : p.1 ≠ k) : Function.update last k (some m) p.1 = some p.2 := by
    rw [Function.update_of_ne hne]
    exact h p hp
  unfold ModuleCache.add
  rw [hm, Bool.not_true, if_neg (by decide)]
  split
  · intro p hp
    rcases mem_cons.1 hp with rfl | hp
    · exact Function.update_self k (some m) last
    · obtain ⟨hmem, hne⟩ := mem_filter.1 hp
      exact other hmem (by simpa using hne)
  rename_i hfull
  intro p hp
  rcases mem_cons.1 hp with rfl | hp
  · exact Function.update_self k (some m) last
  · have hmem := dropLast_subset _ hp
    refine other hmem fun heq => hfull (.inl (Option.isSome_iff_ne_none.2 fun hnone => ?_))
    simpa [heq] using lookup_eq_none_iff.1 hnone p hmem

/-- **A cache finds what was last added or nothing**, however many modules it keeps. -/
theorem recalls (size : Int) : ModuleStore.Recalls (ModuleCache.new size) := by
  intro c last hc k
  have hwithin : c.Within last := by
    induction hc with
    | start => intro p hp; cases hp
    | get k _ ih => exact ih.get k
    | add k hm _ ih => exact ih.add k hm
  show (c.get k).1 = none ∨ (c.get k).1 = last k
  unfold ModuleCache.get
  split
  · exact .inl rfl
  · rename_i m hm
    exact .inr (hwithin (k, m) (mem_of_lookup hm)).symm

end ModuleCache

/-! ## Requests -/

namespace Broker

open ModuleStore (Reaches Recalls)

/-- A request for one method. -/
structure Request where
  isCancelled : Bool := false
  method : Method

namespace Request

/-- A request that gave a module for a key. -/
structure Gives (r : Request) (s : Settings) (k : CacheKey) (mod : Ir.Module) : Prop where
  served : r.isCancelled = false
  key : CacheKey.ofMethod r.method s = k
  lifted : liftMethod r.method s = .ok mod

end Request

section

variable {C : Type} [ModuleStore C] {first c : C} {s : Settings} {before : List Request} {r : Request}

/-- The store after a sequence of requests. -/
def storeAfter (s : Settings) (first : C) (rs : List Request) : C :=
  rs.foldl (fun c r => (serve s c r.isCancelled r.method).2) first

/-- Methods with equal keys are lifted to the same module, if any. -/
def Consistent (s : Settings) (rs : List Request) : Prop :=
  ∀ q ∈ rs, ∀ r ∈ rs, CacheKey.ofMethod q.method s = CacheKey.ofMethod r.method s →
    ∀ mod, liftMethod q.method s = .ok mod → liftMethod r.method s = .ok mod

/-- A store in which each module was added for a request that was served. -/
def Backed (s : Settings) (first : C) (before : List Request) (c : C) : Prop :=
  ∃ last, Reaches first c last ∧ ∀ k mod, last k = some mod → ∃ q ∈ before, q.Gives s k mod

/-- What a request gets from a store, and what the store is afterwards. -/
structure Answered (s : Settings) (before : List Request) (r : Request) (c : C) (a : Result × C) : Prop where
  method : a.1.method = r.method.key
  cancelled : r.isCancelled = true →
    a.1.outcome = .error .canceled ∧ a.1.listing = [] ∧ a.1.isCached = false ∧ a.2 = c
  lifted : r.isCancelled = false → ∀ mod, liftMethod r.method s = .ok mod →
    a.1.outcome = .ok mod ∧ (s.dumpIr = false → a.1.listing = []) ∧ (a.1.listing = mod.dump ↔ s.dumpIr = true)
  /-- The store was looked into, and nothing was added. -/
  failed : r.isCancelled = false → ∀ e, liftMethod r.method s = .error e →
    a.1.outcome = .error (.bailout e) ∧ a.1.listing = [] ∧ a.1.isCached = false ∧
      let k := CacheKey.ofMethod r.method s
      a.2 = (ModuleStore.get (ModuleStore.get c k).2 k).2
  cached : a.1.isCached = true → ∃ q ∈ before, ∃ mod, q.Gives s (CacheKey.ofMethod r.method s) mod

section

variable (h : Backed s first before c)

include h

theorem Backed.mono (r : Request) : Backed s first (before ++ [r]) c := by
  obtain ⟨last, hreach, hlast⟩ := h
  refine ⟨last, hreach, fun k mod hk => ?_⟩
  obtain ⟨q, hq, hgives⟩ := hlast k mod hk
  exact ⟨q, mem_append_left _ hq, hgives⟩

theorem Backed.get (k : CacheKey) : Backed s first before (ModuleStore.get c k).2 := by
  obtain ⟨last, hreach, hlast⟩ := h
  exact ⟨last, hreach.get k, hlast⟩

theorem Backed.add {k : CacheKey} (hr : r.Gives s k mod) :
    Backed s first (before ++ [r]) (ModuleStore.add c k mod) := by
  obtain ⟨last, hreach, hlast⟩ := h
  refine ⟨_, hreach.add k (liftMethod_frozen hr.lifted), fun k' mod' hk' => ?_⟩
  by_cases heq : k' = k
  · subst heq
    rw [Function.update_self] at hk'
    obtain rfl := Option.some.inj hk'
    exact ⟨r, mem_append_right _ (mem_singleton.2 rfl), hr⟩
  · rw [Function.update_of_ne heq] at hk'
    obtain ⟨q, hq, hgives⟩ := hlast k' mod' hk'
    exact ⟨q, mem_append_left _ hq, hgives⟩

/-- What a look-up finds was lifted for an earlier request. -/
theorem Backed.of_get (hrec : Recalls first) {k : CacheKey}
    (hget : (ModuleStore.get c k).1 = some mod) : ∃ q ∈ before, q.Gives s k mod := by
  obtain ⟨last, hreach, hlast⟩ := h
  rcases hrec hreach k with hnone | hsome
  · cases hnone.symm.trans hget
  · exact hlast k mod (hsome.symm.trans hget)

end

theorem answered_found {isCached : Bool} {c' : C} (hlift : liftMethod r.method s = .ok mod)
    (hlive : r.isCancelled = false) (hcached : isCached = true → ∃ q ∈ before, q.Gives s (ofMethod r.method s) mod) :
    Answered s before r c (found s r.method mod isCached, c') := by
  have hdump := liftMethod_dump_ne_nil hlift
  refine ⟨rfl, fun hc => ?_, fun _ mod' hmod' => ?_, fun _ e he => ?_, fun hc => ?_⟩
  · cases hlive.symm.trans hc
  · obtain rfl := Except.ok.inj (hlift.symm.trans hmod')
    cases hs : s.dumpIr <;> simp [found, hs, hdump.symm]
  · cases hlift.symm.trans he
  · obtain ⟨q, hq, hgives⟩ := hcached hc
    exact ⟨q, hq, mod, hgives⟩

/-- **One request keeps the store backed and gets what its method is lifted to.** -/
theorem Backed.step (h : Backed s first before c) (hrec : Recalls first) (hkeys : Consistent s (before ++ [r])) :
    Answered s before r c (serve s c r.isCancelled r.method) ∧
      Backed s first (before ++ [r]) (serve s c r.isCancelled r.method).2 := by
  have hr : r ∈ before ++ [r] := mem_append_right _ (mem_singleton.2 rfl)
  -- a module out of the store is that of the method
  have hstored {c : C} (h : Backed s first before c) {mod : Ir.Module}
      (hget : (ModuleStore.get c (ofMethod r.method s)).1 = some mod) :
      liftMethod r.method s = .ok mod ∧ ∃ q ∈ before, q.Gives s (ofMethod r.method s) mod := by
    obtain ⟨q, hq, hgives⟩ := h.of_get hrec hget
    exact ⟨hkeys q (mem_append_left _ hq) r hr hgives.key mod hgives.lifted, q, hq, hgives⟩
  cases hcancelled : r.isCancelled with
  | true =>
    have heq : serve s c true r.method = ({ method := r.method.key, outcome := .error .canceled }, c) := by simp [serve]
    rw [heq]
    refine ⟨⟨rfl, fun _ => ⟨rfl, rfl, rfl, rfl⟩, fun hlive => ?_, fun hlive => ?_, fun hc => by cases hc⟩, h.mono r⟩
    all_goals cases hlive.symm.trans hcancelled
  | false =>
    have h1 := h.get (ofMethod r.method s)
    have h2 := h1.get (ofMethod r.method s)
    rcases hget : ModuleStore.get c (ofMethod r.method s) with ⟨_ | mod, c1⟩
    all_goals rw [hget] at h1 h2
    · rcases hagain : ModuleStore.get c1 (ofMethod r.method s) with ⟨_ | mod, c2⟩
      all_goals rw [hagain] at h2
      · cases hlift : liftMethod r.method s with
        | error e =>
          have heq : serve s c false r.method = ({ method := r.method.key, outcome := .error (.bailout e) }, c2) := by
            simp [serve, hget, hagain, hlift]
          rw [heq]
          refine ⟨⟨rfl, fun hc => ?_, fun _ mod hmod => ?_, fun _ e' he' => ?_, fun hc => by cases hc⟩, h2.mono r⟩
          · cases hcancelled.symm.trans hc
          · cases hlift.symm.trans hmod
          · obtain rfl := Except.error.inj (hlift.symm.trans he')
            exact ⟨rfl, rfl, rfl, by simp only [hget, hagain]⟩
        | ok mod =>
          have heq : serve s c false r.method =
              (found s r.method mod false, ModuleStore.add c2 (ofMethod r.method s) mod) := by
            simp [serve, hget, hagain, hlift]
          rw [heq]
          exact ⟨answered_found hlift hcancelled (by simp), h2.add ⟨hcancelled, rfl, hlift⟩⟩
      · have heq : serve s c false r.method = (found s r.method mod false, c2) := by simp [serve, hget, hagain]
        obtain ⟨hlift, -⟩ := hstored h1 (by rw [hagain])
        rw [heq]
        exact ⟨answered_found hlift hcancelled (by simp), h2.mono r⟩
    · have heq : serve s c false r.method = (found s r.method mod true, c1) := by simp [serve, hget]
      obtain ⟨hlift, hearlier⟩ := hstored h (by rw [hget])
      rw [heq]
      exact ⟨answered_found hlift hcancelled fun _ => hearlier, h1.mono r⟩

/-- **A sequence of requests keeps the store backed.** -/
theorem backed_storeAfter (hrec : Recalls first) (rs : List Request) (hkeys : Consistent s rs) :
    Backed s first rs (storeAfter s first rs) := by
  induction rs using List.reverseRecOn with
  | nil => exact ⟨_, .start, fun k mod hk => by cases hk⟩
  | append_singleton rs r ih =>
    have hbefore : Consistent s rs := fun q hq r hr => hkeys q (mem_append_left _ hq) r (mem_append_left _ hr)
    have hstep := ((ih hbefore).step hrec hkeys).2
    rw [storeAfter, foldl_append]
    exact hstep

/-- **What a request gets does not depend on the requests before it**, and what the store holds afterwards was lifted for a request that
was served. -/
theorem serve_transparent (hrec : Recalls first) (s : Settings) (before : List Request) (r : Request)
    (hkeys : Consistent s (before ++ [r])) :
    Answered s before r (storeAfter s first before) (serve s (storeAfter s first before) r.isCancelled r.method) ∧
    ∀ k mod, (ModuleStore.get (storeAfter s first (before ++ [r])) k).1 = some mod → ∃ q ∈ before ++ [r], q.Gives s k mod := by
  have hbefore : Consistent s before := fun q hq r hr => hkeys q (List.mem_append_left _ hq) r (List.mem_append_left _ hr)
  obtain ⟨hanswered, hbacked⟩ := (backed_storeAfter hrec before hbefore).step hrec hkeys
  refine ⟨hanswered, fun k mod hget => hbacked.of_get hrec ?_⟩
  rw [storeAfter, List.foldl_append] at hget
  exact hget

end

/-- A cache of one module, after a request that was cancelled and one that was served: a method that differs in the declared depth of
its stack gets the module that it is lifted to, with its listing. -/
theorem guardedQuotient_served : ∃ (b : Broker) (m : Method) (before : List Request) (mod : Ir.Module),
    before = [⟨true, guardedQuotient⟩, ⟨false, guardedQuotient⟩] ∧ m ≠ guardedQuotient ∧ b.settings.dumpIr = true ∧
    b.cache = storeAfter b.settings (ModuleCache.new 1) before ∧ Recalls (ModuleCache.new 1) ∧
    Consistent b.settings (before ++ [⟨false, m⟩]) ∧ liftMethod m b.settings = .ok mod ∧
    (b.compile false m).1.outcome = .ok mod ∧ (b.compile false m).1.listing = mod.dump := by
  obtain ⟨s, hs⟩ : ∃ s : Settings, s = { dumpIr := true } := ⟨_, rfl⟩
  obtain ⟨m, hm⟩ : ∃ m : Method, m = { guardedQuotient with maxStack := 7 } := ⟨_, rfl⟩
  have hlifted : ((liftMethod m s).toOption.any fun mod => decide (liftMethod guardedQuotient s = .ok mod)) = true := by
    rw [hs, hm]
    decide +kernel
  obtain ⟨mod, hmod, hsame⟩ := exists_ok_of_any hlifted
  have hall : ∀ q ∈ [⟨true, guardedQuotient⟩, ⟨false, guardedQuotient⟩] ++ [⟨false, m⟩], liftMethod (Request.method q) s = .ok mod := by
    simpa [hmod] using hsame
  have hkeys : Consistent s ([⟨true, guardedQuotient⟩, ⟨false, guardedQuotient⟩] ++ [⟨false, m⟩]) := by
    intro q hq r hr _ mod' hmod'
    rw [hall r hr, ← hall q hq]
    exact hmod'
  have hanswered := (serve_transparent (ModuleCache.recalls 1) s _ ⟨false, m⟩ hkeys).1
  obtain ⟨b, rfl, hcache⟩ : ∃ b : Broker, b.settings = s ∧
      b.cache = storeAfter s (ModuleCache.new 1) [⟨true, guardedQuotient⟩, ⟨false, guardedQuotient⟩] := ⟨⟨s, _, false⟩, rfl, rfl⟩
  rw [← hcache] at hanswered
  obtain ⟨houtcome, -, hlisting⟩ := hanswered.lifted rfl mod hmod
  have hne : m ≠ guardedQuotient := by
    rw [hm]
    decide +kernel
  have hdump : b.settings.dumpIr = true := by rw [hs]
  exact ⟨b, m, _, mod, rfl, hne, hdump, hcache, ModuleCache.recalls 1, hkeys, hmod, houtcome, hlisting.2 hdump⟩

end Broker
end Bytelift
