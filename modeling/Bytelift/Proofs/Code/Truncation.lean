import Bytelift.Proofs.Code.Assembled

/-!
# Operands that do not fit

Operands are cut to the size of their fields when they are written: the index of a local variable and the amount of an `iinc` to two
bytes, the last key of a `tableswitch` to four, the index of a constant to two and the words of an interface call to one. A call is
refused for its opcode, for a switch without cases or for a descriptor, but never for the size of such an operand. So the bytes of a call
that is accepted are read back with its operands exactly if these fit, and else the method is built with others.

Results:
* `Call.recorded_and_kept_iff`: **a call records an error exactly if it is refused, and keeps its operands exactly if they fit.**
-/

namespace Bytelift

open List Assembler
open Instruction (OperandFits Encodable fixedAt)

/-- What a call writes is read back with its operands, whatever follows. Labels are not placed yet. -/
def Call.Kept (a : Assembler) (c : Call) : Prop :=
  ∃ b bs i, (c.apply a).code.toList = a.code.toList ++ b :: bs ∧ i.len = (b :: bs).length ∧ c.Holds a (fun _ => a.pos) i ∧
    ∀ rest, Code.decodeOne a.pos b (bs ++ rest) = .ok i

/-! ## Operands that are read -/

theorem Instruction.Encodable.bounds {i : Instruction} (h : i.Encodable) : match i.operand with
    | .localVar n | .pool n => n ≤ 65535
    | .increment n d => n ≤ 65535 ∧ -32768 ≤ d ∧ d ≤ 32767
    | .poolCount n k => n ≤ 65535 ∧ k ≤ 255
    | .switch t => i.op = .tableswitch → -2147483648 ≤ t.keys.headD 0 ∧ t.keys.headD 0 + t.keys.length - 1 ≤ 2147483647
    | _ => True := by
  cases h with
  | @switch bci op t ht =>
    rintro ⟨⟩
    have hlow := ht.range (t.keys.headD 0) (by simp [SwitchTable.numbers])
    have hhigh := ht.range (t.keys.headD 0 + t.cases.length - 1) (by simp [SwitchTable.numbers])
    rw [SwitchTable.keys, length_map]
    exact ⟨hlow.1, hhigh.2⟩
  | @wide bci op o ho => rcases Code.wideFits_cases ho with ⟨-, n, d, rfl, h⟩ | ⟨-, n, rfl, h⟩ <;> exact h
  | @fixed bci op o hdef ho =>
    unfold fixedAt
    cases he : op.encoding <;> cases o <;> simp_all [OperandFits] <;> omega

namespace Call

variable {a b : Assembler} {c : Call} {e : AssemblyError}

/-- **No bytes are read back with an operand that does not fit.** -/
theorem not_overflows_of_kept (hr : ¬ c.Refused) (h : c.Kept a) : ¬ c.Overflows a := by
  obtain ⟨b, bs, i, -, -, hi, hdec⟩ := h
  obtain ⟨-, henc, -⟩ := Code.decodeOne_fits (hdec [])
  have hb := henc.bounds
  have hnothing (h : c.wanted a = .nothing) : c.index a = 0 := by rw [index, h, find]
  cases c with
  | localOp op n | iinc n d =>
    obtain ⟨-, k, rfl, ho⟩ := hi
    rw [ho] at hb
    simp only [Overflows, hnothing rfl]
    omega
  | tableSwitch low l ls =>
    obtain ⟨hop, t, ho, hkeys, -⟩ := hi
    rw [ho] at hb
    have hb := hb hop
    obtain ⟨n, hn⟩ := Nat.exists_eq_succ_of_ne_zero fun hnil => hr (length_eq_zero_iff.1 hnil)
    rw [hkeys, length_map, length_range, hn, range_succ_eq_map] at hb
    simp only [map_cons, headD_cons] at hb
    simp only [Overflows, hnothing rfl]
    omega
  | invoke op owner name desc =>
    obtain ⟨-, hplain, hcount⟩ := hi
    by_cases hop : op = .invoke .interface
    · obtain ⟨t, ht, ho⟩ := hcount hop
      rw [ho] at hb
      rintro (hn | ⟨-, t', ht', hslots⟩)
      · omega
      · cases ht.symm.trans ht'
        omega
    · rw [hplain hop] at hb
      rintro (hn | ⟨hop', -⟩)
      · omega
      · exact hop hop'
  | multiArray desc dims =>
    obtain ⟨-, k, rfl, ho⟩ := hi
    rw [ho] at hb
    simp only [Overflows, or_false, not_lt]
    exact hb.1
  | field | classOp | ldcInt | ldcLong | ldcFloat | ldcDouble | ldcString =>
    rw [hi.2] at hb
    simpa only [Overflows, or_false, not_lt] using hb
  | plain | int | branch => simp only [Overflows, hnothing rfl, or_false, not_lt, Nat.zero_le]
  | _ => exact hi.elim

theorem kept_of_not_overflows (hc : c.isStep = true) (hr : ¬ c.Refused) (hfits : ¬ c.Overflows a) : c.Kept a := by
  obtain ⟨i, hbci, henc, hbs, hi⟩ := encoded_blank hc hr hfits
  obtain ⟨b, bs, hcode⟩ := Code.exists_cons_of_fits henc hbs
  rw [hcode] at hbs
  refine ⟨b, bs, i, ?_, by rw [← Code.length_layout henc, hbs.length], hi, fun rest => hbci ▸ Code.decodeOne_eq henc hbs⟩
  rw [apply_accepted hc hr, code_act, hcode]

/-! ## Errors -/

theorem error_reference (a : Assembler) (base : Nat) (isLong : Bool) (l : Text) : (a.reference base isLong l).error = a.error := by
  cases isLong <;> rfl

theorem error_put (a : Assembler) (ps : List Piece) : (a.put ps).error = a.error := by
  induction ps generalizing a with
  | nil => rfl
  | cons p ps ih =>
    refine (ih _).trans ?_
    cases p with
    | bytes bs => rfl
    | jump base isLong l => exact error_reference a base isLong l

theorem error_find (a : Assembler) (w : Wanted) : (a.find w).1.error = a.error := by
  obtain ⟨pool, interned, classes, h⟩ := a.find_eq w
  rw [h]

theorem error_accepted (hc : c.isStep = true) (hr : ¬ c.Refused) : (c.apply a).error = a.error := by
  have hput := (error_put (a.find (c.wanted a)).1 (c.pieces a)).trans (error_find a _)
  rw [apply_accepted hc hr, act]
  cases c.room <;> exact hput

theorem error_fail_of_some (h : a.error = some e) (e' : AssemblyError) : (a.fail e').error = some e := by
  rw [fail, h]
  rfl

theorem error_apply (c : Call) (h : a.error = some e) : (c.apply a).error = some e := by
  by_cases hc : c.emits = true
  · refine apply_keeps (P := fun b => b.error = some e)
      ⟨fun b e' hb => error_fail_of_some hb e', fun _ _ => id, fun _ _ => id, fun b base isLong l hb => ?_⟩
      hc (fun b hb => ?_) h
    · rw [error_reference, hb]
    · rw [error_find, hb]
  cases c with
  | label l =>
    rw [apply, Assembler.label]
    split
    · exact error_fail_of_some h _
    · exact h
  | guardRange | declareClass | locals | stack => exact h
  | _ => exact absurd rfl hc

theorem error_run (h : a.error = some e) (cs : List Call) : (run a cs).error = some e := by
  induction cs generalizing a with
  | nil => exact h
  | cons c cs ih => exact ih (error_apply c h)

/-- **Operands that do not fit are not refused, and they are not kept.** A call records an error, with which building fails after any
other calls, exactly if it is refused; and one that records none is read back with its operands exactly if they fit. -/
theorem recorded_and_kept_iff (hc : c.isStep = true) (a : Assembler) :
    ((c.apply a).error ≠ none ↔ a.error ≠ none ∨ c.Refused) ∧
    (∀ e, (c.apply a).error = some e → ∀ cs, (run (c.apply a) cs).build.2 = .error e) ∧
    ((c.apply a).error = none → (c.Kept a ↔ ¬ c.Overflows a)) := by
  have herror : (c.apply a).error ≠ none ↔ a.error ≠ none ∨ c.Refused := by
    by_cases hr : c.Refused
    · obtain ⟨e, he⟩ := apply_refused (a := a) hc hr
      exact iff_of_true (he ▸ a.error_fail e) (.inr hr)
    · rw [error_accepted hc hr, or_iff_left hr]
  refine ⟨herror, fun e he cs => ?_, fun hnone => ?_⟩
  · unfold Assembler.build
    rw [error_run he]
  · have hr : ¬ c.Refused := fun hr => herror.2 (.inr hr) hnone
    exact ⟨not_overflows_of_kept hr, kept_of_not_overflows hc hr⟩

/-- A load from a local variable whose index takes two bytes. -/
theorem wideLoad_kept : (Call.localOp (.load .int) 300).Kept (Assembler.start [84] [109] [40, 41, 86] true) :=
  ((recorded_and_kept_iff rfl _).2.2 rfl).2 (by simp [Overflows, index, wanted, Assembler.find])

/-- A load from the local variable -1 is written as one from the variable 255. -/
theorem negativeLoad_not_kept : (Call.localOp (.load .int) (-1)).Overflows (Assembler.start [84] [109] [40, 41, 86] true) ∧
    ((Call.localOp (.load .int) (-1)).apply (Assembler.start [84] [109] [40, 41, 86] true)).error = none ∧
    ((Call.localOp (.load .int) (-1)).apply (Assembler.start [84] [109] [40, 41, 86] true)).code.toList = [0x15, 0xff] ∧
    Code.decodeOne 0 0x15 [0xff] = .ok ⟨0, .load .int, 2, .localVar 255, false⟩ :=
  ⟨.inr (.inl (by decide)), rfl, by decide +kernel, by decide +kernel⟩

end Call
end Bytelift
