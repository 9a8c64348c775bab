import Bytelift.Proofs.Lift.Verified

/-!
# Sites and landingpads

A site of a module is a place at which lifted code may throw: an instruction whose operation may throw,
or a block that ends by throwing. A bci is a protected site if some row of the exception table covers it.

Results:
* `liftMethod_padsForSites`: **landingpads exist exactly for protected sites**.
-/

namespace Bytelift

open Ir

/-- A block is a landingpad for a bci: its descriptor says so. -/
def Ir.Module.IsPad (m : Module) (c : Int) (p : BlockId) : Prop :=
  ∃ k d, m.block? p = some k ∧ k.pad = some d ∧ d.bci = c

/-- A landingpad for a bci that has the label of one. -/
def Ir.Module.LabelledPad (m : Module) (c : Int) (p : BlockId) : Prop :=
  ∃ k d, m.block? p = some k ∧ k.kind = .landingpad ∧ k.label = "bci_" ++ Text.ofInt c ++ "_unwind_dest" ∧
    k.pad = some d ∧ d.bci = c

theorem Ir.Module.LabelledPad.isPad {m : Module} {c : Int} {p : BlockId} (h : m.LabelledPad c p) : m.IsPad c p := by
  obtain ⟨k, d, hk, -, -, hd, hc⟩ := h
  exact ⟨k, d, hk, hd, hc⟩

namespace Lift

/-- Lifted code may throw at a bci: an instruction of it may, or a block of it ends with an `athrow`. -/
def SiteAt (cx : Context) (m : Module) (c : Int) : Prop :=
  ∃ b k, m.block? b = some k ∧
    ((∃ v ∈ k.insts, ∃ i, m.inst? v = some i ∧ i.op.mayThrow = true ∧ i.bci = c) ∨
      k.term.isThrow = true ∧ ∃ i, LastOf cx k.start i ∧ i.op = .athrow ∧ i.bci = c)

/-- The landingpads of a module are those of its protected sites. -/
structure PadsForSites (cx : Context) (m : Module) : Prop where
  /-- A protected instruction that may throw ends its block, and its fault goes to its landingpad. -/
  inst : ∀ {b k before v after i}, m.block? b = some k → k.insts.toList = before ++ v :: after →
    m.inst? v = some i → i.op.mayThrow = true → cx.table.isProtected i.bci = true →
    after = [] ∧ ∃ x u, k.term = .mayUnwind x u ∧ m.LabelledPad i.bci u
  /-- A throw goes to the landingpad of its `athrow` if that is protected, and nowhere otherwise. -/
  throw : ∀ {b k v u}, m.block? b = some k → k.term = .throw v u → ∃ i, LastOf cx k.start i ∧ i.op = .athrow ∧
    if cx.table.isProtected i.bci then m.LabelledPad i.bci u else u = noBlock
  /-- Only a protected instruction that may throw has its block unwind. -/
  unwind : ∀ {b k x u}, m.block? b = some k → k.term = .mayUnwind x u → ∃ v i, k.insts.back? = some v ∧
    m.inst? v = some i ∧ i.op.mayThrow = true ∧ cx.table.isProtected i.bci = true
  /-- There is one landingpad for a protected site. -/
  one : ∀ {c}, SiteAt cx m c → cx.table.isProtected c = true → ∃! p, m.IsPad c p
  /-- There is no other landingpad. -/
  only : ∀ {p k}, m.block? p = some k → k.kind = .landingpad ∨ k.pad.isSome = true →
    ∃ c, m.IsPad c p ∧ SiteAt cx m c ∧ cx.table.isProtected c = true

variable {cx : Context} {s : State} {b p : BlockId} {k : Block} {c : Int}

theorem PadOk.labelledPad (h : PadOk cx s c p) : s.mod.LabelledPad c p := by
  obtain ⟨-, k, -, -, -, -, cleanup, hk, -, hlabel, ⟨k', hk', hkind, -⟩, -, -, -, -, -, -, -, hd⟩ := h
  obtain rfl := Option.mem_unique hk hk'
  exact ⟨k, _, hk, hkind, hlabel, hd, rfl⟩

namespace Finished

section

variable (h : Finished cx s)

include h

/-- A protected instruction that may throw is a fault that is to be caught. -/
theorem fault_of_inst (hk : s.mod.block? b = some k) {before after : List ValueId} {v : ValueId}
    {i : Inst} (hv : k.insts.toList = before ++ v :: after) (hi : s.mod.inst? v = some i) (hop : i.op.mayThrow = true)
    (hp : cx.table.isProtected i.bci = true) :
    after = [] ∧ (∃ x u, k.term = .mayUnwind x u) ∧ FaultAt cx s k i.bci := by
  obtain ⟨D, hg, -⟩ := h.good
  obtain rfl := (hg.block hk).fault hv hi hop hp
  have hback : k.insts.back? = some v := by
    rw [← Array.getLast?_toList, hv]
    simp
  obtain ⟨x, u, ht⟩ := (hg.unwinds hk hback hi hop hp).resolve_left (h.complete.term hk)
  refine ⟨rfl, ⟨x, u, ht⟩, ?_⟩
  unfold FaultAt
  rw [ht]
  exact ⟨hp, v, i, hback, hi, hop, rfl⟩

/-- A block that throws ends with the `athrow` of its bytecode block. -/
theorem athrow_of_throw (hk : s.mod.block? b = some k) (ht : k.term.isThrow = true) :
    ∃ i, LastOf cx k.start i ∧ i.op = .athrow := by
  obtain ⟨D, hg, -⟩ := h.good
  have hlaw := hg.block hk
  have hcode := hlaw.code (hlaw.throws ht) (h.complete.term hk)
  generalize k.term = t at ht hcode
  cases hcode with
  | tail hi htail =>
    cases htail with
    | throw hop => exact ⟨_, hi, hop⟩
    | jump hp | fall hp | leave hp => rcases hp with rfl | rfl | ⟨u, rfl⟩ <;> cases ht
    | _ => cases ht
  | _ => cases ht

/-- A protected site is a fault that is to be caught, and such a fault is a protected site. -/
theorem siteAt_iff : SiteAt cx s.mod c ∧ cx.table.isProtected c = true ↔
    ∃ b k, s.mod.block? b = some k ∧ FaultAt cx s k c := by
  constructor
  · rintro ⟨⟨b, k, hk, ⟨v, hv, i, hi, hop, rfl⟩ | ⟨ht, i, hlast, hop, rfl⟩⟩, hp⟩
    · obtain ⟨before, after, heq⟩ := List.append_of_mem (Array.mem_toList_iff.2 hv)
      exact ⟨b, k, hk, (h.fault_of_inst hk heq hi hop hp).2.2⟩
    refine ⟨b, k, hk, ?_⟩
    unfold FaultAt
    generalize k.term = t at ht
    cases t with
    | throw v u => exact ⟨hp, i, hlast, rfl⟩
    | _ => cases ht
  · rintro ⟨b, k, hk, hf⟩
    have hthrow := h.athrow_of_throw hk
    unfold FaultAt at hf
    split at hf
    · obtain ⟨hp, v, i, hv, hi, hop, rfl⟩ := hf
      exact ⟨⟨b, k, hk, .inl ⟨v, Array.mem_of_back? hv, i, hi, hop, rfl⟩⟩, hp⟩
    · rename_i v u ht
      obtain ⟨hp, i, hlast, rfl⟩ := hf
      obtain ⟨j, hj, hop⟩ := hthrow (by rw [ht]; rfl)
      obtain rfl := hlast.unique h.tiled hj
      exact ⟨⟨b, k, hk, .inr ⟨by rw [ht]; rfl, i, hlast, hop, rfl⟩⟩, hp⟩
    · exact hf.elim

theorem mem_pads_of_kind (hk : s.mod.block? p = some k) (hkind : k.kind = .landingpad) :
    (k.start, p) ∈ s.pads := by
  obtain ⟨D, hg, -⟩ := h.good
  rcases hg.padBlock hk hkind with hx | hx
  · cases hx
  · exact hx

theorem kind_of_pad (hk : s.mod.block? p = some k) {d : Landingpad} (hd : k.pad = some d) :
    k.kind = .landingpad := by
  obtain ⟨D, hg, -⟩ := h.good
  obtain ⟨⟨v, i, hv, hi, hop⟩, -⟩ := (hg.block hk).sound.pad hd
  have hmem : v ∈ k.insts := Array.mem_of_getElem? hv
  obtain ⟨before, after, heq⟩ := List.append_of_mem (Array.mem_toList_iff.2 hmem)
  obtain ⟨j, hj, hs⟩ := (hg.block hk).sound.inst heq
  obtain rfl := Option.mem_unique hj hi
  exact (hs.landingpad hop).2

/-- **The landingpads are those in the table.** -/
theorem isPad_iff : s.mod.IsPad c p ↔ (c, p) ∈ s.pads := by
  obtain ⟨D, hg, -⟩ := h.good
  constructor
  · rintro ⟨k, d, hk, hd, rfl⟩
    have hmem := h.mem_pads_of_kind hk (h.kind_of_pad hk hd)
    obtain ⟨k', d', hk', -, -, hd', hstart⟩ := (hg.pad hmem).labelledPad
    obtain rfl := Option.mem_unique hk hk'
    obtain rfl := Option.mem_unique hd hd'
    rwa [hstart]
  · exact fun hmem => (hg.pad hmem).labelledPad.isPad

/-- **Landingpads exist exactly for protected sites.** -/
theorem padsForSites : PadsForSites cx s.mod := by
  obtain ⟨D, hg, -⟩ := h.good
  refine ⟨fun hk hv hi hop hp => ?_, fun {b k v u} hk ht => ?_, fun hk ht => ?_, fun hsite hp => ?_,
    fun {p k} hk hpad => ?_⟩
  · obtain ⟨hnil, ⟨x, u, ht⟩, hf⟩ := h.fault_of_inst hk hv hi hop hp
    have hpad := (h.pad_of_fault hk hf).labelledPad
    rw [ht] at hpad
    exact ⟨hnil, x, u, ht, hpad⟩
  · obtain ⟨i, hi, hop⟩ := h.athrow_of_throw hk (by rw [ht]; rfl)
    refine ⟨i, hi, hop, ?_⟩
    split
    · rename_i hp
      have hf : FaultAt cx s k i.bci := by
        unfold FaultAt
        rw [ht]
        exact ⟨hp, i, hi, rfl⟩
      have hpad := (h.pad_of_fault hk hf).labelledPad
      rwa [ht] at hpad
    · rename_i hp
      -- a throw with an unwind edge is a fault at a protected bci
      by_contra hne
      obtain ⟨c, hf⟩ := (hg.block hk).caught (by rw [ht]; exact hne)
      unfold FaultAt at hf
      rw [ht] at hf
      obtain ⟨hc, j, hj, rfl⟩ := hf
      obtain rfl := hi.unique h.tiled hj
      exact hp hc
  · obtain ⟨c, hf⟩ := (hg.block hk).split ht
    unfold FaultAt at hf
    rw [ht] at hf
    obtain ⟨hp, v, i, hv, hi, hop, rfl⟩ := hf
    exact ⟨v, i, hv, hi, hop, hp⟩
  · obtain ⟨b, k, hk, hf⟩ := h.siteAt_iff.1 ⟨hsite, hp⟩
    refine ⟨k.term.unwind, h.isPad_iff.2 (h.mem_pads hk hf), fun q hq => ?_⟩
    have heq := List.inj_on_of_nodup_map hg.padsNodup (h.isPad_iff.1 hq) (h.mem_pads hk hf) rfl
    exact (Prod.mk.inj heq).2
  · have hkind : k.kind = .landingpad := by
      rcases hpad with hkind | hsome
      · exact hkind
      · obtain ⟨d, hd⟩ := Option.isSome_iff_exists.1 hsome
        exact h.kind_of_pad hk hd
    have hmem := h.mem_pads_of_kind hk hkind
    exact ⟨k.start, h.isPad_iff.2 hmem, h.siteAt_iff.2 (hg.site hmem)⟩

end

end Finished

end Lift

/-- **Landingpads exist exactly for protected sites.** The sites are told by the exception table of the
method and by the last instructions of its bytecode blocks. -/
theorem liftMethod_padsForSites {m : Method} {settings : Settings} {mod : Module} (h : liftMethod m settings = .ok mod) :
    ∃ cx, Lift.context m settings = .ok cx ∧ cx.table = m.exceptions ∧ Lift.PadsForSites cx mod := by
  obtain ⟨cx, hcx⟩ := Lift.exists_context h
  obtain ⟨s, hfin, rfl⟩ := Lift.liftMethod_finished h hcx
  obtain ⟨rfl, -, -⟩ := Lift.context_ok hcx
  exact ⟨cx, hcx, rfl, hfin.padsForSites⟩

/-- The division at bci 2, which cleanup code protects, has its landingpad. -/
theorem guardedQuotient_padsForSites : ∃ mod, liftMethod guardedQuotient {} = .ok mod ∧ ∃! p, mod.IsPad 2 p := by
  have hlifted : ((liftMethod guardedQuotient {}).toOption.any fun mod => mod.blocks.toList.zipIdx.any fun (k, n) =>
      (mod.block? n == some k) && k.insts.any fun v => (mod.inst? v).any fun i => i.op.mayThrow && i.bci == 2) = true := by
    decide +kernel
  obtain ⟨mod, hmod, hsite⟩ := exists_ok_of_any hlifted
  obtain ⟨⟨k, n⟩, -, hkn⟩ := List.any_eq_true.1 hsite
  obtain ⟨hk, hv⟩ := Bool.and_eq_true_iff.1 hkn
  obtain ⟨v, hv, hi⟩ := Array.any_eq_true'.1 hv
  obtain ⟨i, hi, hop⟩ := (Option.any_eq_true _ _).1 hi
  obtain ⟨hop, hbci⟩ := Bool.and_eq_true_iff.1 hop
  obtain ⟨cx, -, htable, hpads⟩ := liftMethod_padsForSites hmod
  refine ⟨mod, hmod, hpads.one ⟨n, k, eq_of_beq hk, .inl ⟨v, hv, i, hi, hop, eq_of_beq hbci⟩⟩ ?_⟩
  rw [htable]
  decide

end Bytelift
