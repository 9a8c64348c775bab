import Bytelift.Lift.Cleanup
import Bytelift.Proofs.Ir.Soundness
import Bytelift.Proofs.Traversals

/-!
# How the state of a lifting grows

A lifting only adds to its module, its entries, its landingpads and the blocks through which regions
are left; a region gets further exits and ends. What was found out about a block that has its terminator
stays true.

Results:
* `Evolves` is reflexive and transitive;
* `Holds.mono`: the code of a closed block does not change.
-/

namespace Bytelift

open List

namespace Ir

/-- A terminator that is never completed further. -/
def Terminator.IsFinal (t : Terminator) : Prop := ∀ t', t.Completes t' → t' = t

theorem Terminator.isFinal_goto (x : BlockId) : (Terminator.goto x).IsFinal := by
  rintro t' ⟨⟩
  rfl

theorem Terminator.isFinal_fallthrough (x : BlockId) : (Terminator.fallthrough x).IsFinal := by
  rintro t' ⟨⟩
  rfl

theorem Terminator.isFinal_condBr (v : ValueId) (x y : BlockId) : (Terminator.condBr v x y).IsFinal := by
  rintro t' ⟨⟩
  rfl

theorem Terminator.isFinal_resume (v : ValueId) : (Terminator.resume v).IsFinal := by
  rintro t' ⟨⟩
  rfl

theorem Terminator.isFinal_ret (v : ValueId) : (Terminator.ret v).IsFinal := by
  rintro t' ⟨⟩
  rfl

/-- An instruction reads or writes a slot. -/
@[simp] def Inst.Accesses (i : Inst) : Prop := i.op = .loadSlot ∨ i.op = .storeSlot

/-- A block consists of the given instructions and terminator. -/
def Module.Holds (m : Module) (b : BlockId) (kind : BlockKind) (is : List Inst) (t : Terminator) : Prop :=
  ∃ k, m.block? b = some k ∧ k.kind = kind ∧ k.term = t ∧
    List.Forall₂ (fun v i => m.inst? v = some i) k.insts.toList is

theorem Module.Grows.forall₂ {m m' : Module} (hg : m.Grows m') {vs : List ValueId} {is : List Inst}
    (h : Forall₂ (fun v i => m.inst? v = some i) vs is) :
    Forall₂ (fun v i => m'.inst? v = some i) vs is :=
  h.imp fun _ _ => hg.inst

theorem Module.Grows.closed {m m' : Module} (hg : m.Grows m') {b : BlockId} {k : Block}
    (hk : m.block? b = some k) (ht : k.term ≠ .none) :
    ∃ k', m'.block? b = some k' ∧ k'.kind = k.kind ∧ k'.start = k.start ∧ k'.insts = k.insts ∧
      k.term.Completes k'.term ∧ ∀ d, k.pad = some d → k'.pad = some d := by
  obtain ⟨k', hk', hkk⟩ := hg.block hk
  obtain ⟨hi, hc⟩ := hkk.closed ht
  exact ⟨k', hk', hkk.kind, hkk.start, hi, hc, hkk.pad⟩

theorem Module.Holds.mono {m m' : Module} (hg : m.Grows m') {b : BlockId} {kind : BlockKind}
    {is : List Inst} {t : Terminator} (hf : t.IsFinal) (ht : t ≠ .none) (h : m.Holds b kind is t) :
    m'.Holds b kind is t := by
  obtain ⟨k, hk, rfl, rfl, his⟩ := h
  obtain ⟨k', hk', hkind, -, hi, hc, -⟩ := hg.closed hk ht
  exact ⟨k', hk', hkind, hf _ hc, hi ▸ hg.forall₂ his⟩

end Ir

namespace Lift

open Ir

/-- The module under construction. -/
abbrev State.mod (s : State) : Module := s.builder.mod

/-- A region gets exits and ends. -/
structure Region.Grows (r r' : Region) : Prop where
  handler : r'.handler = r.handler
  rows : r'.rows = r.rows
  selector : r'.selector = r.selector
  exits : r.exits <+: r'.exits
  ends : r.ends <+: r'.ends

theorem Region.Grows.refl (r : Region) : r.Grows r :=
  ⟨rfl, rfl, rfl, prefix_rfl, prefix_rfl⟩

theorem Region.Grows.trans {r r' r'' : Region} (h : r.Grows r') (h' : r'.Grows r'') : r.Grows r'' :=
  ⟨h'.handler.trans h.handler, h'.rows.trans h.rows, h'.selector.trans h.selector,
    h.exits.trans h'.exits, h.ends.trans h'.ends⟩

/-- The state of a lifting grows. -/
structure Evolves (s s' : State) : Prop where
  module : s.mod.Grows s'.mod
  entries : s.entries <+: s'.entries
  pads : s.pads <+: s'.pads
  leaves : s.leaves <+: s'.leaves
  ret : ∀ {b}, s.returnBlock = some b → s'.returnBlock = some b
  regions : List.Forall₂ Region.Grows s.regions s'.regions
  maxStack : s.maxStack ≤ s'.maxStack

namespace Evolves

variable {s s' s'' : State}

theorem refl (s : State) : Evolves s s :=
  ⟨.refl _, prefix_rfl, prefix_rfl, prefix_rfl, fun h => h,
    forall₂_same.2 fun r _ => .refl r, Nat.le_refl _⟩

theorem trans (h : Evolves s s') (h' : Evolves s' s'') : Evolves s s'' where
  module := h.module.trans h'.module
  entries := h.entries.trans h'.entries
  pads := h.pads.trans h'.pads
  leaves := h.leaves.trans h'.leaves
  ret hb := h'.ret (h.ret hb)
  regions := forall₂_trans h.regions h'.regions .trans
  maxStack := h.maxStack.trans h'.maxStack

theorem of_module {m : Module} {b : Builder} (hb : b.mod = m) (h : s.mod.Grows m) :
    Evolves s { s with builder := b } :=
  { refl s with module := by subst hb; exact h }

theorem region (h : Evolves s s') {r : Region} (hr : r ∈ s.regions) : ∃ r' ∈ s'.regions, r.Grows r' :=
  exists_of_mem_left h.regions hr

theorem region_back (h : Evolves s s') {r' : Region} (hr : r' ∈ s'.regions) :
    ∃ r ∈ s.regions, r.Grows r' :=
  exists_of_mem_right h.regions hr

theorem ends_mono (h : Evolves s s') {e : BlockId × ValueId} (he : ∃ r ∈ s.regions, e ∈ r.ends) :
    ∃ r ∈ s'.regions, e ∈ r.ends := by
  obtain ⟨r, hr, he⟩ := he
  obtain ⟨r', hr', hg⟩ := h.region hr
  exact ⟨r', hr', hg.ends.subset he⟩

end Evolves

theorem handlers_eq {R : Region → Region → Prop} {rs rs' : List Region} (h : Forall₂ R rs rs')
    (hR : ∀ {r r'}, R r r' → r'.handler = r.handler) : rs'.map (·.handler) = rs.map (·.handler) := by
  induction h with
  | nil => rfl
  | cons hr _ ih => simp [hR hr, ih]

end Lift
end Bytelift
