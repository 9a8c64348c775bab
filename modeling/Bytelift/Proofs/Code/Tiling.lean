import Bytelift.Proofs.Code.Layout

/-!
# Code as a sequence of encoded instructions

Code decodes to instructions exactly if it is made of their bytes, one after the other and without a gap. So the instructions tile the
code, each depends on its own bytes alone, and together they determine every byte of the code that they do not leave open.

Results: `decode_iff`, `decode_spans`, `decode_tiles`.
-/

namespace Bytelift

open List
open Layout (fixed slack Fits)

/-- A byte of the code that does not matter to an instruction: padding before the table of a switch, the fifth byte of a call through an
interface, and the last two of a dynamic call. -/
def Instruction.Slack (i : Instruction) (k : Nat) : Prop :=
  match i.op with
  | .tableswitch | .lookupswitch => i.bci < k ∧ k ≤ i.bci + Code.padding i.bci
  | .invoke .interface => k = i.bci + 4
  | .invoke .dynamic => k = i.bci + 3 ∨ k = i.bci + 4
  | _ => False

namespace Code

open Instruction (OperandFits Encodable switchAt wideAt fixedAt)

variable {bci : Nat} {bs cs : List UInt8} {i : Instruction} {is : List Instruction}

/-! ## Code -/

theorem length_layout (h : i.Encodable) : i.layout.length = i.len := by
  cases h with
  | switch h =>
    rw [layout_switchAt, switchAt]
    simp only [slack, fixed, length_cons, length_append, length_replicate, length_map, length_flatMap_bytes4]
    omega
  | wide h =>
    rw [layout_wideAt h, wideAt]
    simp only [length_cons]
    omega
  | @fixed bci op o hdef h =>
    obtain ⟨henc, -, hlen⟩ := operandFits_plain h
    have hpos : 0 < op.encoding.length := by cases hop : op.encoding <;> simp_all [Encoding.length]
    rw [layout_fixedAt h, fixedAt, length_cons, hlen]
    dsimp only
    omega

/-- Code from a bci on is made of instructions, one after the other. -/
def Reads : Nat → List Instruction → List UInt8 → Prop
  | _, [], bs => bs = []
  | bci, i :: is, bs => i.bci = bci ∧ i.Encodable ∧ ∃ own rest, bs = own ++ rest ∧ Fits i.layout own ∧ Reads i.next is rest

theorem decodeFrom_skip (bci : Nat) (own : List UInt8) (bs : List UInt8) (acc : List Instruction) :
    decodeFrom bci own.length (own ++ bs) acc = decodeFrom (bci + own.length) 0 bs acc := by
  induction own generalizing bci with
  | nil => rfl
  | cons b own ih =>
    rw [length_cons, cons_append, decodeFrom, ih, Nat.add_right_comm, Nat.add_assoc]

theorem len_pos (h : i.Encodable) : 0 < i.len := by
  rw [← length_layout h]
  cases h with
  | switch h => exact Nat.succ_pos _
  | wide h => exact layout_wideAt h ▸ Nat.succ_pos _
  | fixed _ h => exact layout_fixedAt h ▸ Nat.succ_pos _

theorem exists_cons_of_fits (h : i.Encodable) {own : List UInt8} (hfits : Fits i.layout own) : ∃ b bs, own = b :: bs :=
  exists_cons_of_length_pos (by rw [hfits.length, length_layout h]; exact len_pos h)

theorem decodeFrom_reads {acc : List Instruction} (h : Reads bci is bs) : decodeFrom bci 0 bs acc = .ok (acc.reverse ++ is) := by
  induction is generalizing bci bs acc with
  | nil =>
    cases h
    simp [decodeFrom]
  | cons i is ih =>
    obtain ⟨rfl, hi, own, rest, rfl, hfits, hrest⟩ := h
    obtain ⟨b, own, rfl⟩ := exists_cons_of_fits hi hfits
    have hlen := hfits.length
    rw [length_cons, length_layout hi] at hlen
    rw [cons_append, decodeFrom, decodeOne_eq hi hfits]
    dsimp only
    rw [show i.len - 1 = own.length by omega, decodeFrom_skip, show i.bci + 1 + own.length = i.next by unfold Instruction.next; omega,
      ih hrest]
    simp

theorem reads_of_decodeFrom {acc : List Instruction} (h : decodeFrom bci 0 bs acc = .ok is) :
    ∃ js, is = acc.reverse ++ js ∧ Reads bci js bs := by
  induction hn : bs.length using Nat.strong_induction_on generalizing bci bs acc with
  | _ n ih =>
    cases bs with
    | nil =>
      cases h
      exact ⟨[], by simp, rfl⟩
    | cons b bs =>
      rw [decodeFrom] at h
      split at h
      · cases h
      rename_i i hi
      obtain ⟨rfl, henc, own, rest, hbs, hfits⟩ := decodeOne_fits hi
      obtain ⟨_, own, rfl⟩ := exists_cons_of_fits henc hfits
      have hlen := hfits.length
      rw [length_cons, length_layout henc] at hlen
      rw [cons_append, List.cons.injEq] at hbs
      obtain ⟨rfl, rfl⟩ := hbs
      rw [show i.len - 1 = own.length by omega, decodeFrom_skip, show i.bci + 1 + own.length = i.next by unfold Instruction.next; omega] at h
      obtain ⟨js, rfl, hjs⟩ := ih rest.length (by rw [← hn, length_cons, length_append]; omega) h rfl
      exact ⟨i :: js, by simp, rfl, henc, b :: own, rest, rfl, hfits, hjs⟩

/-- **Decoding accepts exactly the sequences of encoded instructions.** -/
theorem decode_iff {code : List UInt8} : decode code = .ok is ↔ Reads 0 is code := by
  constructor
  · intro h
    obtain ⟨js, rfl, hjs⟩ := reads_of_decodeFrom h
    exact hjs
  · exact decodeFrom_reads

theorem getElem?_fixed_ne (k : Nat) (bs : List UInt8) : (fixed bs)[k]? ≠ some none := by
  simp [fixed]

theorem getElem?_slack (k n : Nat) : (slack n)[k]? = some none ↔ k < n := by
  simp [slack, getElem?_replicate]

theorem getElem?_fixed_slack (k n : Nat) (bs : List UInt8) :
    (fixed bs ++ slack n)[k]? = some none ↔ bs.length ≤ k ∧ k < bs.length + n := by
  have hlen : (fixed bs).length = bs.length := length_map _
  rcases Nat.lt_or_ge k bs.length with hk | hk
  · rw [getElem?_append_left (by rwa [hlen])]
    exact iff_of_false (getElem?_fixed_ne k bs) (by omega)
  · rw [getElem?_append_right (by rwa [hlen]), getElem?_slack, hlen]
    omega

theorem operandLayout_slack {e : Encoding} {o : Operand} (h : OperandFits bci e o) (k : Nat) :
    (operandLayout bci e o)[k]? = some none ↔ e = .interfaceCall ∧ k = 3 ∨ e = .dynamicCall ∧ (k = 2 ∨ k = 3) := by
  cases e <;> cases o <;> simp only [OperandFits] at h <;>
    simp only [operandLayout, getElem?_fixed_ne, getElem?_nil, reduceCtorEq, false_and, or_self, true_and, false_or, or_false,
      getElem?_fixed_slack, length_append, length_bytes2, length_singleton] <;> omega

theorem encoding_call {op : Opcode} :
    (op.encoding = .interfaceCall → op = .invoke .interface) ∧ (op.encoding = .dynamicCall → op = .invoke .dynamic) := by
  unfold Opcode.encoding
  split <;> simp

theorem slack_fixedAt {op : Opcode} (o : Operand) (h : op.encoding ≠ .varying) (k : Nat) : (fixedAt bci op o).Slack (bci + k) ↔
    op.encoding = .interfaceCall ∧ k = 4 ∨ op.encoding = .dynamicCall ∧ (k = 3 ∨ k = 4) := by
  unfold Instruction.Slack
  dsimp only [fixedAt]
  split
  · exact absurd rfl h
  · exact absurd rfl h
  · simp [Opcode.encoding]
  · simp [Opcode.encoding]
  · rename_i hinterface hdynamic
    refine iff_of_false id ?_
    rintro (⟨hop, -⟩ | ⟨hop, -⟩)
    · exact hinterface (encoding_call.1 hop)
    · exact hdynamic (encoding_call.2 hop)

/-- The bytes that a layout leaves open are the slack of the instruction. -/
theorem layout_slack (h : i.Encodable) (k : Nat) : i.layout[k]? = some none ↔ i.Slack (i.bci + k) := by
  cases h with
  | @switch bci op t h =>
    have hslack : (switchAt bci op t).Slack (bci + k) ↔ bci < bci + k ∧ bci + k ≤ bci + padding bci := by
      rcases isSwitch_cases h.switch with rfl | rfl <;> rfl
    refine Iff.trans ?_ hslack.symm
    rw [layout_switchAt]
    cases k with
    | zero => simp
    | succ k =>
      rw [getElem?_cons_succ]
      rcases Nat.lt_or_ge k (padding bci) with hk | hk
      · rw [getElem?_append_left (by simpa [slack] using hk), getElem?_slack]
        omega
      · rw [getElem?_append_right (by simpa [slack] using hk)]
        exact iff_of_false (getElem?_fixed_ne _ _) (by omega)
  | @wide bci op o h =>
    have hslack : ¬ (wideAt bci op o).Slack (bci + k) := by
      rcases wideFits_cases h with ⟨rfl, -⟩ | ⟨rfl | ⟨n, rfl | rfl⟩, -⟩ <;> exact id
    refine iff_of_false ?_ hslack
    obtain ⟨bs, hbs⟩ : ∃ bs, (wideAt bci op o).layout = fixed bs := by
      rw [layout_wideAt h]
      rcases wideFits_cases h with ⟨-, n, d, rfl, -⟩ | ⟨-, n, rfl, -⟩ <;> exact ⟨_ :: _ :: _, rfl⟩
    rw [hbs]
    exact getElem?_fixed_ne k bs
  | @fixed bci op o hdef h =>
    rw [layout_fixedAt h]
    refine Iff.trans ?_ (slack_fixedAt o (operandFits_plain h).1 k).symm
    cases k with
    | zero => simp
    | succ k =>
      rw [getElem?_cons_succ, operandLayout_slack h]
      simp only [Nat.reduceEqDiff]

/-! ## What code determines -/

theorem Reads.mem (h : Reads bci is bs) (hi : i ∈ is) :
    bci ≤ i.bci ∧ i.Encodable ∧ ∃ own rest, bs.drop (i.bci - bci) = own ++ rest ∧ Fits i.layout own := by
  induction is generalizing bci bs with
  | nil => cases hi
  | cons j is ih =>
    obtain ⟨rfl, hj, own, rest, rfl, hfits, hrest⟩ := h
    rcases mem_cons.1 hi with rfl | hi
    · exact ⟨Nat.le_refl _, hj, own, rest, by simp, hfits⟩
    obtain ⟨hle, henc, own', rest', hdrop, hfits'⟩ := ih hrest hi
    have hown : j.next = j.bci + own.length := by rw [Instruction.next, ← length_layout hj, hfits.length]
    refine ⟨by omega, henc, own', rest', ?_, hfits'⟩
    rw [← hdrop, show i.bci - j.bci = own.length + (i.bci - j.next) by omega, drop_append]
    simp

theorem Reads.spans (h : Reads bci is bs) : Spans bci is (bci + bs.length) := by
  induction is generalizing bci bs with
  | nil =>
    cases h
    rfl
  | cons i is ih =>
    obtain ⟨rfl, hi, own, rest, rfl, hfits, hrest⟩ := h
    have hown : i.next = i.bci + own.length := by rw [Instruction.next, ← length_layout hi, hfits.length]
    refine ⟨rfl, ?_⟩
    rw [length_append, ← Nat.add_assoc, ← hown]
    exact ih hrest

theorem lt_of_slack {k : Nat} (h : i.Slack k) : i.bci < k := by
  unfold Instruction.Slack at h
  split at h
  all_goals first | omega | exact h.elim

theorem fits_iff_getElem? {l : Layout} : Fits l bs ↔ l.length = bs.length ∧
    ∀ (k : Nat) (b : UInt8), bs[k]? = some b → l[k]? = some none ∨ l[k]? = some (some b) := by
  unfold Fits
  rw [forall₂_iff_get]
  refine and_congr_right fun hlen => ⟨fun h k b hb => ?_, fun h k hl hbs => ?_⟩
  · obtain ⟨hk, rfl⟩ := List.getElem?_eq_some_iff.1 hb
    simpa [getElem?_eq_getElem, hlen, hk] using h k (by omega) hk
  · simpa [getElem?_eq_getElem, hl, hbs] using h k bs[k] (getElem?_eq_getElem hbs)

/-- Bytes follow the layout of an instruction as other bytes do exactly if they agree with them outside the slack. -/
theorem fits_iff_agree {own : List UInt8} (h : i.Encodable) (hown : Fits i.layout own) (hlen : cs.length = own.length) :
    Fits i.layout cs ↔ ∀ k, own[k]? = cs[k]? ∨ i.Slack (i.bci + k) := by
  rw [fits_iff_getElem?] at hown ⊢
  simp only [← layout_slack h]
  constructor
  · rintro ⟨-, hcs⟩ k
    cases hc : cs[k]? with
    | none =>
      rw [List.getElem?_eq_none_iff, hlen] at hc
      exact .inl (getElem?_eq_none hc)
    | some c =>
      obtain ⟨b, hb⟩ : ∃ b, own[k]? = some b := ⟨_, getElem?_eq_getElem (hlen ▸ (List.getElem?_eq_some_iff.1 hc).1)⟩
      rcases hown.2 k b hb with hk | hk
      · exact .inr hk
      rcases hcs k c hc with hk' | hk'
      · exact .inr hk'
      rw [hk, Option.some.injEq] at hk'
      exact .inl (hb.trans hk')
  · intro hagree
    refine ⟨by omega, fun k b hb => ?_⟩
    rcases hagree k with hk | hk
    · exact hown.2 k b (hk.trans hb)
    · exact .inl hk

/-- The same instructions are read from other bytes exactly if those agree outside the slack. -/
theorem Reads.iff_agree (h : Reads bci is bs) (hlen : cs.length = bs.length) :
    Reads bci is cs ↔ ∀ k, bs[k]? = cs[k]? ∨ ∃ i ∈ is, i.Slack (bci + k) := by
  induction is generalizing bci bs cs with
  | nil =>
    cases h
    obtain rfl := length_eq_zero_iff.1 hlen
    simp [Reads]
  | cons i is ih =>
    obtain ⟨rfl, hi, own, rest, rfl, hfits, hrest⟩ := h
    have hown : i.next = i.bci + own.length := by rw [Instruction.next, ← length_layout hi, hfits.length]
    obtain ⟨cs, ds, rfl, hcs⟩ : ∃ cs' ds, cs = cs' ++ ds ∧ cs'.length = own.length :=
      ⟨cs.take own.length, cs.drop own.length, (take_append_drop _ _).symm, by simp at hlen ⊢; omega⟩
    have hds : ds.length = rest.length := by simp at hlen; omega
    have hsplit : Reads i.bci (i :: is) (cs ++ ds) ↔ Fits i.layout cs ∧ Reads i.next is ds := by
      constructor
      · rintro ⟨-, -, own', rest', heq, hfits', hrest'⟩
        obtain ⟨rfl, rfl⟩ := append_inj heq (by rw [hcs, hfits.length, hfits'.length])
        exact ⟨hfits', hrest'⟩
      · exact fun ⟨hcs, hds⟩ => ⟨rfl, hi, cs, ds, rfl, hcs, hds⟩
    rw [hsplit, fits_iff_agree hi hfits hcs, ih hrest hds]
    constructor
    · rintro ⟨hhead, htail⟩ k
      rcases Nat.lt_or_ge k own.length with hk | hk
      · rw [getElem?_append_left hk, getElem?_append_left (by omega)]
        exact (hhead k).imp_right fun h => ⟨i, mem_cons_self, h⟩
      · rw [getElem?_append_right hk, getElem?_append_right (by omega), hcs]
        refine (htail (k - own.length)).imp_right fun ⟨j, hj, h⟩ => ⟨j, mem_cons_of_mem i hj, ?_⟩
        rwa [hown, show i.bci + own.length + (k - own.length) = i.bci + k by omega] at h
    · intro hagree
      refine ⟨fun k => ?_, fun k => ?_⟩
      · rcases Nat.lt_or_ge k own.length with hk | hk
        · have hagree := hagree k
          rw [getElem?_append_left hk, getElem?_append_left (by omega)] at hagree
          refine hagree.imp_right fun ⟨j, hj, h⟩ => ?_
          rcases mem_cons.1 hj with rfl | hj
          · exact h
          · have hle := (hrest.mem hj).1
            have hlt := lt_of_slack h
            omega
        · exact .inl ((getElem?_eq_none hk).trans (getElem?_eq_none (by omega)).symm)
      · have hk := hagree (own.length + k)
        rw [getElem?_append_right (by omega), getElem?_append_right (by omega), hcs, Nat.add_sub_cancel_left] at hk
        refine hk.imp_right fun ⟨j, hj, h⟩ => ?_
        rcases mem_cons.1 hj with rfl | hj
        · rw [← layout_slack hi, getElem?_eq_none (by rw [← hfits.length]; omega)] at h
          cases h
        · exact ⟨j, hj, by rwa [hown, Nat.add_assoc]⟩

theorem isDefined_of_encodable (h : i.Encodable) : i.op.isDefined = true := by
  cases h with
  | switch h => rcases isSwitch_cases h.switch with h | h <;> simp [switchAt, h, Opcode.isDefined]
  | wide h => rcases wideFits_cases h with ⟨h, -⟩ | ⟨h | ⟨n, h | h⟩, -⟩ <;> simp [wideAt, h, Opcode.isDefined]
  | fixed hdef h => exact hdef

theorem table_of_encodable (h : i.Encodable) (hop : i.op.isSwitch = true) :
    ∃ t, i.operand = .switch t ∧ t.keys.Pairwise (· < ·) := by
  cases h with
  | @switch bci op t h => exact ⟨t, rfl, h.ascending⟩
  | wide h => rcases wideFits_cases h with ⟨rfl, -⟩ | ⟨rfl | ⟨n, rfl | rfl⟩, -⟩ <;> cases hop
  | @fixed bci op o hdef h =>
    refine absurd ?_ (operandFits_plain h).1
    change op.isSwitch = true at hop
    rcases isSwitch_cases hop with rfl | rfl <;> rfl

/-- Decoded instructions follow each other from the first byte to the last, and a switch has a table. -/
theorem decode_spans {code : List UInt8} (h : decode code = .ok is) :
    Spans 0 is code.length ∧ ∀ i ∈ is, 0 < i.len ∧ (i.op.isSwitch = true → ∃ t, i.operand = .switch t) := by
  have hreads := decode_iff.1 h
  refine ⟨by simpa using hreads.spans, fun i hi => ?_⟩
  obtain ⟨-, henc, -⟩ := hreads.mem hi
  exact ⟨len_pos henc, fun hop => (table_of_encodable henc hop).imp fun _ ht => ht.1⟩

/-- **Decoding tiles the code and loses nothing but slack.** Code either does not decode, or its instructions follow each other from its
first byte to its last; each has at least one byte, a defined opcode and ascending keys, one for each target, if it is a switch, and is
read from its own bytes alone. Code of the same length decodes to the same instructions exactly if it agrees on every byte outside the
slack. -/
theorem decode_tiles (code : List UInt8) : (∃ e, decode code = .error e) ∨
    ∃ is, decode code = .ok is ∧ Spans 0 is code.length ∧
      (∀ i ∈ is, 0 < i.len ∧ i.op.isDefined = true ∧
        (i.op.isSwitch = true → ∃ t, i.operand = .switch t ∧ t.keys.Pairwise (· < ·) ∧ t.targets.length = t.keys.length + 1) ∧
        ∃ b own, (code.drop i.bci).take i.len = b :: own ∧ ∀ rest, decodeOne i.bci b (own ++ rest) = .ok i) ∧
      ∀ code', code'.length = code.length →
        (decode code' = .ok is ↔ ∀ k, code[k]? = code'[k]? ∨ ∃ i ∈ is, i.Slack k) := by
  cases hcode : decode code with
  | error e => exact .inl ⟨e, rfl⟩
  | ok is =>
    have hreads := decode_iff.1 hcode
    refine .inr ⟨is, rfl, by simpa using hreads.spans, fun i hi => ?_, fun code' hlen => ?_⟩
    · obtain ⟨-, henc, own, rest, hdrop, hfits⟩ := hreads.mem hi
      refine ⟨len_pos henc, isDefined_of_encodable henc, fun hop => ?_, ?_⟩
      · obtain ⟨t, ht, hkeys⟩ := table_of_encodable henc hop
        exact ⟨t, ht, hkeys, by simp [SwitchTable.targets, SwitchTable.keys]⟩
      · obtain ⟨b, own, rfl⟩ := exists_cons_of_fits henc hfits
        refine ⟨b, own, ?_, fun rest => decodeOne_eq henc hfits⟩
        rw [Nat.sub_zero] at hdrop
        rw [hdrop, ← length_layout henc, ← hfits.length, List.take_left]
    · rw [decode_iff, hreads.iff_agree hlen]
      simp only [Nat.zero_add]

/-- The last byte of a call through an interface does not matter. -/
theorem decode_tiles_interface : ∃ is, decode [0xb9, 0, 1, 2, 0] = .ok is ∧ decode [0xb9, 0, 1, 2, 7] = .ok is := by
  obtain ⟨e, he⟩ | ⟨is, his, -, -, hagree⟩ := decode_tiles [0xb9, 0, 1, 2, 0]
  · cases he
  · have hcall : is = [⟨0, .invoke .interface, 5, .poolCount 1 2, false⟩] := by
      cases his
      rfl
    subst hcall
    refine ⟨_, his, (hagree [0xb9, 0, 1, 2, 7] rfl).2 fun k => ?_⟩
    match k with
    | 0 | 1 | 2 | 3 | _ + 5 => exact .inl rfl
    | 4 => exact .inr ⟨_, List.mem_singleton_self _, rfl⟩

end Code
end Bytelift
