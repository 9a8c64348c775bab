import Bytelift.Proofs.Lift.Closing

/-!
# Lifted modules verify

A lifting gives up for a reason that lies in the method, or it ends in a finished state, and the module
of a finished state can be frozen. So what the lifter builds never fails to verify, and the lifter never
misses a part of its own state.

A bailout shows its reason as a text only, and some of these texts start with names from the method or
with numbers. None of them can be mistaken for a text by which the lifter blames itself.

Results:
* `liftMethod_frozen_or_bailout`: **a method is lifted into a frozen module or given up for a fault of its own**.
-/

namespace Bytelift

open Partition List

/-! ## The texts of reasons -/

/-- Whether a text blames the lifter: its module did not verify, or it met an error of its own. -/
def Text.blamesLifter (t : Text) : Bool :=
  t == Text.ofString "generated IR failed verification" || (Text.ofString "internal error: ").isPrefixOf t

theorem Opcode.mnemonic_blamesLifter (op : Opcode) (t : Text) : (op.mnemonic ++ t).blamesLifter = false := by
  cases op with
  | iconst n =>
    simp only [Opcode.mnemonic]
    split <;> rfl
  | load l | store l | valueReturn l | loadAt l | storeAt l => cases l <;> rfl
  | arrayLoad e | arrayStore e => cases e <;> rfl
  | stack o | field o | invoke o => cases o <;> rfl
  | arith o n => cases n <;> cases o <;> rfl
  | bits o w => cases w <;> cases o <;> rfl
  | convert c => cases c <;> rfl
  | fcmp double greater => cases double <;> cases greater <;> rfl
  | ifRef equal => cases equal <;> rfl
  | ifNull isNull => cases isNull <;> rfl
  | _ => rfl

theorem Text.ofNat_blamesLifter (n : Nat) (t : Text) : (Text.ofNat n ++ t).blamesLifter = false := by
  obtain ⟨c, cs, hd⟩ := exists_cons_of_ne_nil (Nat.toDigits_ne_nil (b := 10) (n := n))
  have hc : byte c ∈ Text.ofNat n := mem_map_of_mem (hd ▸ mem_cons_self)
  have hg : byte c ≠ 103 := fun h => notMem_ofNat rfl n (h ▸ hc)
  have hi : 105 ≠ byte c := fun h => notMem_ofNat rfl n (h ▸ hc)
  have hofNat : Text.ofNat n ++ t = byte c :: (cs.map byte ++ t) := by
    unfold Text.ofNat
    rw [hd]
    rfl
  rw [hofNat, blamesLifter, Bool.or_eq_false_iff]
  constructor
  · exact beq_eq_false_iff_ne.2 fun h => hg (head_eq_of_cons_eq h)
  · change ((105 == byte c) && _) = false
    rw [beq_eq_false_iff_ne.2 hi, Bool.false_and]

/-- **No text of an honest reason blames the lifter.** -/
theorem Reason.Honest.text {r : Reason} (h : r.Honest) : r.text.blamesLifter = false := by
  cases r with
  | unverified e => exact h.elim
  | internal => exact h.elim
  | branchTarget | loadConstant | returnType | invokeOwner =>
    simp only [Reason.text, append_assoc, Opcode.mnemonic_blamesLifter]
  | nestedCleanups | unwindCleanups => simp only [Reason.text, append_assoc, Text.ofNat_blamesLifter]
  | poolOperand use e =>
    have huses : ∀ use ∈ Reason.poolUses, (use ++ Text.ofString " operand").blamesLifter = false := by decide
    exact huses use h
  | _ => rfl

/-! ## Bailouts -/

/-- A method that cannot be split into blocks is given up for a fault of its own. -/
theorem Partition.ofMethod_honest {m : Method} {e : Bailout} (h : ofMethod m = .error e) : e.reason.Honest := by
  unfold ofMethod at h
  split at h
  · cases h
    trivial
  have hflaw := isFlaw_ofInstructions h
  cases hr : e.reason <;> first | trivial | (rw [hr] at hflaw; exact hflaw.elim)

namespace Lift

open Ir

variable {cx : Context} {m : Method} {settings : Settings}

theorem context_honest {e : Bailout} (h : context m settings = .error e) : e.reason.Honest := by
  unfold context at h
  split at h
  · cases h
    trivial
  split at h
  · rename_i hp
    cases h
    exact ofMethod_honest hp
  · cases h

theorem context_ok (h : context m settings = .ok cx) :
    cx.method = m ∧ cx.partition.Tiled ∧ m.instructions = .ok cx.partition.insts := by
  unfold context at h
  split at h
  · cases h
  split at h
  · cases h
  · rename_i hp
    cases h
    exact ⟨rfl, ofMethod_tiled hp⟩

theorem context_protected (h : context m settings = .ok cx) {c : Int} (hc : cx.table.isProtected c = true) :
    0 ≤ c ∧ c < m.code.length := by
  obtain ⟨rfl, -, -⟩ := context_ok h
  unfold context at h
  split at h
  · cases h
  · split at h
    · cases h
    · rename_i hp
      exact ofMethod_protected hp hc

/-- How a lifting ends, with the state in which the building of a module ended. -/
theorem liftMethod_cases (m : Method) (settings : Settings) :
    (∃ cx s mod, context m settings = .ok cx ∧ cx.build.run { builder := Builder.new m.key } = (.ok (), s) ∧
      s.builder.freeze.1 = .ok mod ∧ liftMethod m settings = .ok mod) ∨
      ∃ e, liftMethod m settings = .error e ∧ e.method = m.key ∧ e.reason.Honest := by
  unfold liftMethod Lift.method attempt
  cases hcx : context m settings with
  | error e =>
    have hhonest := context_honest hcx
    exact .inr ⟨_, rfl, rfl, hhonest⟩
  | ok cx =>
    obtain ⟨rfl, ht, -⟩ := context_ok hcx
    unfold Context.liftBody
    dsimp only
    rw [run_bind]
    rcases hrun : cx.build.run { builder := Builder.new cx.method.key } with ⟨e | u, s⟩
    · have hhonest := (wp_build ht).honest hrun
      exact .inr ⟨_, rfl, rfl, hhonest⟩
    · obtain ⟨mod, hmod, -⟩ := ((wp_build ht).of_run hrun).freeze
      have hget : (get : LiftM State).run s = (.ok s, s) := rfl
      refine .inl ⟨cx, s, mod, rfl, hrun, hmod, ?_⟩
      dsimp only
      rw [run_bind, hget]
      dsimp only
      rw [hmod]
      rfl

variable {mod : Module}

section

variable (h : liftMethod m settings = .ok mod)

include h

theorem exists_context : ∃ cx, context m settings = .ok cx := by
  rcases liftMethod_cases m settings with ⟨cx, -, -, hcx, -⟩ | ⟨e, he, -⟩
  · exact ⟨cx, hcx⟩
  · cases h.symm.trans he

/-- **A lifted module is what was built, frozen.** -/
theorem liftMethod_ends (hcx : context m settings = .ok cx) :
    ∃ s, cx.build.run { builder := Builder.new m.key } = (.ok (), s) ∧ s.builder.freeze.1 = .ok mod ∧
      Finished cx s ∧ s.mod.Linked mod ∧ mod.frozen = true := by
  rcases liftMethod_cases m settings with ⟨cx', s, mod', hcx', hrun, hfreeze, hmod⟩ | ⟨e, he, -⟩
  · obtain rfl := Except.ok.inj (hcx.symm.trans hcx')
    obtain rfl := Except.ok.inj (h.symm.trans hmod)
    obtain ⟨rfl, ht, -⟩ := context_ok hcx
    have hfin := (wp_build ht).of_run hrun
    obtain ⟨mod', hmod', hfrozen, hl⟩ := hfin.freeze
    obtain rfl := Except.ok.inj (hmod'.symm.trans hfreeze)
    exact ⟨s, hrun, hfreeze, hfin, hl, hfrozen⟩
  · cases h.symm.trans he

/-- **A lifted module is that of a finished state.** -/
theorem liftMethod_finished (hcx : context m settings = .ok cx) :
    ∃ s, Finished cx s ∧ s.mod = mod := by
  obtain ⟨s, -, -, hfin, hl, -⟩ := liftMethod_ends h hcx
  exact ⟨s.link mod, hfin.link hl, rfl⟩

end

end Lift

/-- The ids of the instructions and blocks of a module are numbers of 32 bits. -/
def Ir.Module.Narrow (m : Module) : Prop := m.insts.size ≤ 2 ^ 31 ∧ m.blocks.size ≤ 2 ^ 31

/-- **A method is lifted into a frozen module or given up for a fault of its own.** When the parts of
a lifting end without a bailout, the module that they built can be frozen. The module only grows, so
that all ids have their 32 bits if those at the end have. -/
theorem liftMethod_frozen_or_bailout (m : Method) (settings : Settings)
    (hnarrow : ∀ cx, Lift.context m settings = .ok cx →
      (cx.build.run { builder := Ir.Builder.new m.key }).2.mod.Narrow) :
    ((∃ mod, liftMethod m settings = .ok mod ∧ mod.frozen = true ∧ mod.Narrow) ∨
      ∃ e, liftMethod m settings = .error e ∧ e.method = m.key ∧
        e.reason.text ≠ Text.ofString "generated IR failed verification" ∧
        ¬ Text.ofString "internal error: " <+: e.reason.text) ∧
      ∀ cx s, Lift.context m settings = .ok cx →
        cx.build.run { builder := Ir.Builder.new m.key } = (.ok (), s) →
        ∃ mod, s.builder.freeze.1 = .ok mod ∧ mod.frozen = true ∧ mod.Narrow := by
  have hlinked {cx : Lift.Context} {s : Lift.State} {mod : Ir.Module} (hcx : Lift.context m settings = .ok cx)
      (hrun : cx.build.run { builder := Ir.Builder.new m.key } = (.ok (), s)) (hl : s.mod.Linked mod) :
      mod.Narrow := by
    have hsize := hnarrow cx hcx
    rwa [hrun, Ir.Module.Narrow, ← hl.insts, ← hl.size] at hsize
  constructor
  · rcases Lift.liftMethod_cases m settings with ⟨cx, s, mod, hcx, -, -, hmod⟩ | ⟨e, he, hkey, hhonest⟩
    · obtain ⟨s, hrun, -, -, hl, hfrozen⟩ := Lift.liftMethod_ends hmod hcx
      exact .inl ⟨mod, hmod, hfrozen, hlinked hcx hrun hl⟩
    · obtain ⟨hne, hno⟩ := Bool.or_eq_false_iff.1 hhonest.text
      refine .inr ⟨e, he, hkey, beq_eq_false_iff_ne.1 hne, fun hpre => ?_⟩
      rw [← List.isPrefixOf_iff_prefix, hno] at hpre
      cases hpre
  · intro cx s hcx hrun
    obtain ⟨rfl, ht, -⟩ := Lift.context_ok hcx
    obtain ⟨mod, hmod, hfrozen, hl⟩ := ((Lift.wp_build ht).of_run hrun).freeze
    exact ⟨mod, hmod, hfrozen, hlinked hcx hrun hl⟩

theorem exists_ok_of_any {ε α : Type} {x : Except ε α} {p : α → Bool} (h : x.toOption.any p = true) :
    ∃ a, x = .ok a ∧ p a = true := by
  cases x with
  | error e => cases h
  | ok a => exact ⟨a, rfl, h⟩

/-- A check of the module that a method is lifted to, and of what it is lifted from. -/
def Lift.lifts (m : Method) (p : Ir.Module → Context → Bool) : Bool :=
  (liftMethod m {}).toOption.any fun mod => (context m {}).toOption.any (p mod)

theorem Lift.exists_of_lifts {m : Method} {p : Ir.Module → Context → Bool} (h : lifts m p = true) :
    ∃ mod cx, liftMethod m {} = .ok mod ∧ context m {} = .ok cx ∧ p mod cx = true := by
  obtain ⟨mod, hmod, h⟩ := exists_ok_of_any h
  obtain ⟨cx, hcx, h⟩ := exists_ok_of_any h
  exact ⟨mod, cx, hmod, hcx, h⟩

/-- A method that divides in a range with cleanup code, and leaves the range by a return. -/
def guardedQuotient : Method :=
  { owner := "T", name := "f", desc := "(II)I", isStatic := true
    maxLocals := 2, code := [0x1a, 0x1b, 0x6c, 0xac, 0xcb]
    exceptions := [{ start := 0, stop := 4, handler := 4, isCleanup := true }] }

theorem guardedQuotient_frozen : ∃ cx s mod, Lift.context guardedQuotient {} = .ok cx ∧
    cx.build.run { builder := Ir.Builder.new guardedQuotient.key } = (.ok (), s) ∧
    s.builder.freeze.1 = .ok mod ∧ mod.frozen = true := by
  have hbuilt : ((Lift.context guardedQuotient {}).toOption.any fun cx =>
      let r := cx.build.run { builder := Ir.Builder.new guardedQuotient.key }
      r.1.isOk && (r.2.mod.insts.size ≤ 2 ^ 31 && r.2.mod.blocks.size ≤ 2 ^ 31)) = true := by
    decide +kernel
  obtain ⟨cx, hcx, hrun⟩ := exists_ok_of_any hbuilt
  simp only [Bool.and_eq_true, decide_eq_true_iff] at hrun
  have hnarrow : ∀ cx', Lift.context guardedQuotient {} = .ok cx' →
      (cx'.build.run { builder := Ir.Builder.new guardedQuotient.key }).2.mod.Narrow := by
    intro cx' hcx'
    obtain rfl := Except.ok.inj (hcx.symm.trans hcx')
    exact hrun.2
  rcases hs : cx.build.run { builder := Ir.Builder.new guardedQuotient.key } with ⟨_ | u, s⟩
  · rw [hs] at hrun
    cases hrun.1
  · obtain ⟨mod, hmod, hfrozen, -⟩ :=
      (liftMethod_frozen_or_bailout guardedQuotient {} hnarrow).2 cx s hcx hs
    exact ⟨cx, s, mod, hcx, hs, hmod, hfrozen⟩

end Bytelift
