import Bytelift.Code.Instruction
import Bytelift.Proofs.Code.Bytes
import Mathlib.Data.List.Forall2

/-!
# Layouts of instructions

The bytes of an instruction are a function of the instruction, up to some that do not matter: padding in front of the table of a
switch, and bytes behind the operands of two kinds of calls. A `Layout` is such a pattern of bytes. An instruction is read from code
exactly if the code starts with bytes that follow its layout, and every instruction that is read has operands that fit their encoding.

Results:
* `decodeOne_fits`: what is read can be encoded, and the code starts with bytes that follow its layout;
* `decodeOne_eq`: an instruction that can be encoded is read from any bytes that follow its layout, whatever is behind them.
-/

namespace Bytelift

open List Opcode

/-! ## Layouts -/

/-- The bytes of an instruction; `none` stands where any byte will do. -/
abbrev Layout := List (Option UInt8)

namespace Layout

/-- The given bytes and no others. -/
def fixed (bs : List UInt8) : Layout := bs.map some

/-- A number of bytes that do not matter. -/
def slack (n : Nat) : Layout := List.replicate n none

/-- Bytes follow a layout. -/
def Fits (l : Layout) (bs : List UInt8) : Prop := List.Forall₂ (fun o b => o = none ∨ o = some b) l bs

variable {l l' : Layout} {bs cs : List UInt8} {n : Nat}

theorem fits_fixed : Fits (fixed cs) bs ↔ bs = cs := by
  unfold Fits fixed
  rw [forall₂_map_left_iff]
  simp only [reduceCtorEq, Option.some.injEq, false_or, forall₂_eq_eq_eq]
  exact eq_comm

theorem fits_slack : Fits (slack n) bs ↔ bs.length = n := by
  induction n generalizing bs with
  | zero => simp [Fits, slack]
  | succ n ih =>
    unfold Fits slack at *
    rw [replicate_succ]
    cases bs with
    | nil => simp
    | cons b bs => simp [ih]

theorem fits_append : Fits (l ++ l') bs ↔ ∃ cs ds, bs = cs ++ ds ∧ Fits l cs ∧ Fits l' ds := by
  constructor
  · intro h
    refine ⟨_, _, (take_append_drop l.length bs).symm, ?_, ?_⟩
    · simpa [Fits] using forall₂_take l.length h
    · simpa [Fits] using forall₂_drop l.length h
  · rintro ⟨cs, ds, rfl, h, h'⟩
    exact rel_append h h'

theorem fits_cons {a b : UInt8} : Fits (some a :: l) (b :: bs) ↔ b = a ∧ Fits l bs := by
  unfold Fits
  rw [forall₂_cons]
  simp only [reduceCtorEq, Option.some.injEq, false_or]
  exact and_congr_left' eq_comm

theorem fits_cons_iff {a : UInt8} : Fits (some a :: l) bs ↔ ∃ cs, bs = a :: cs ∧ Fits l cs := by
  cases bs with
  | nil => simp [Fits]
  | cons b bs =>
    rw [fits_cons]
    simp only [List.cons.injEq]
    aesop

theorem Fits.length (h : Fits l bs) : bs.length = l.length := (Forall₂.length_eq h).symm

end Layout

open Assembler (lowByte bytes2 bytes4)
open Layout (fixed slack Fits)

/-- The numbers in the table of a switch at a bci. -/
def SwitchTable.numbers (bci : Int) (op : Opcode) (t : SwitchTable) : List Int :=
  if op = .tableswitch then
    let low := t.keys.headD 0
    [t.fallback - bci, low, low + t.cases.length - 1] ++ t.cases.map fun c => c.2 - bci
  else [t.fallback - bci, (t.cases.length : Int)] ++ t.cases.flatMap fun c => [c.1, c.2 - bci]

/-- The layout of the operand of an instruction of fixed length. -/
def operandLayout (bci : Nat) : Encoding → Operand → Layout
  | .byte, .imm v | .arrayTag, .imm v => fixed [lowByte v]
  | .short, .imm v => fixed (bytes2 v)
  | .localIndex, .localVar n | .poolByte, .pool n => fixed [lowByte n]
  | .increment, .increment n d => fixed [lowByte n, lowByte d]
  | .poolShort, .pool n => fixed (bytes2 n)
  | .dynamicCall, .pool n => fixed (bytes2 n) ++ slack 2
  | .interfaceCall, .poolCount n c => fixed (bytes2 n ++ [lowByte c]) ++ slack 1
  | .dimensions, .poolCount n c => fixed (bytes2 n ++ [lowByte c])
  | .branchShort, .branch t => fixed (bytes2 (t - bci))
  | .branchLong, .branch t => fixed (bytes4 (t - bci))
  | _, _ => []

/-- The layout of the operand of an instruction under `wide`. -/
def wideLayout : Operand → Layout
  | .localVar n => fixed (bytes2 n)
  | .increment n d => fixed (bytes2 n ++ bytes2 d)
  | _ => []

namespace Instruction

/-- The bytes that an instruction is decoded from. -/
def layout (i : Instruction) : Layout :=
  match i.operand with
  | .switch t => some i.op.byte :: (slack (Code.padding i.bci) ++ fixed ((t.numbers i.bci i.op).flatMap bytes4))
  | operand =>
    if i.isWide then some Opcode.wide.byte :: some i.op.byte :: wideLayout operand
    else some i.op.byte :: operandLayout i.bci i.op.encoding operand

/-- An operand fits the encoding of its opcode. -/
def OperandFits (bci : Nat) : Encoding → Operand → Prop
  | .none, .none => True
  | .byte, .imm v => -128 ≤ v ∧ v ≤ 127
  | .arrayTag, .imm v => 0 ≤ v ∧ v ≤ 255
  | .short, .imm v => -32768 ≤ v ∧ v ≤ 32767
  | .localIndex, .localVar n | .poolByte, .pool n => n ≤ 255
  | .increment, .increment n d => n ≤ 255 ∧ -128 ≤ d ∧ d ≤ 127
  | .poolShort, .pool n | .dynamicCall, .pool n => n ≤ 65535
  | .interfaceCall, .poolCount n c | .dimensions, .poolCount n c => n ≤ 65535 ∧ c ≤ 255
  | .branchShort, .branch t => -32768 ≤ t - bci ∧ t - bci ≤ 32767
  | .branchLong, .branch t => -2147483648 ≤ t - bci ∧ t - bci ≤ 2147483647
  | _, _ => False

/-- An operand fits an opcode under `wide`. -/
def WideFits : Opcode → Operand → Prop
  | .iinc, .increment n d => n ≤ 65535 ∧ -32768 ≤ d ∧ d ≤ 32767
  | .load _, .localVar n | .store _, .localVar n | .ret, .localVar n => n ≤ 65535
  | _, _ => False

/-- A table fits a switch: its numbers have 32 bits, and the keys ascend, one by one in a `tableswitch`. -/
structure TableFits (bci : Nat) (op : Opcode) (t : SwitchTable) : Prop where
  switch : op.isSwitch = true
  range : ∀ w ∈ t.numbers bci op, -2147483648 ≤ w ∧ w ≤ 2147483647
  ascending : t.keys.Pairwise (· < ·)
  dense : op = .tableswitch → t.cases ≠ [] ∧ ∀ (n : Nat) (c : Int × Int), t.cases[n]? = some c → c.1 = t.keys.headD 0 + n

/-- A switch: its opcode, padding and the numbers of its table. -/
def switchAt (bci : Nat) (op : Opcode) (t : SwitchTable) : Instruction :=
  ⟨bci, op, 1 + Code.padding bci + 4 * (t.numbers bci op).length, .switch t, false⟩

/-- An instruction under `wide`. -/
def wideAt (bci : Nat) (op : Opcode) (o : Operand) : Instruction := ⟨bci, op, 2 + (wideLayout o).length, o, true⟩

/-- An instruction of fixed length. -/
def fixedAt (bci : Nat) (op : Opcode) (o : Operand) : Instruction := ⟨bci, op, op.encoding.length, o, false⟩

/-- The instructions that have an encoding. -/
inductive Encodable : Instruction → Prop
  | switch {bci op t} : TableFits bci op t → Encodable (switchAt bci op t)
  | wide {bci op o} : WideFits op o → Encodable (wideAt bci op o)
  | fixed {bci op o} : op.isDefined = true → OperandFits bci op.encoding o → Encodable (fixedAt bci op o)

end Instruction

/-! ## Sequences of instructions -/

variable {a z : Nat} {is : List Instruction}

/-- The instructions follow each other from one bci up to another. -/
def Spans : Nat → List Instruction → Nat → Prop
  | a, [], z => a = z
  | a, i :: is, z => i.bci = a ∧ Spans i.next is z

theorem spans_append {js : List Instruction} : Spans a (is ++ js) z ↔ ∃ m, Spans a is m ∧ Spans m js z := by
  induction is generalizing a with
  | nil => simp [Spans]
  | cons i is ih => simp [Spans, ih, and_assoc]

/-- Instructions that follow each other and advance do not overlap. -/
theorem Spans.pairwise (h : Spans a is z) (hlen : ∀ i ∈ is, 0 < i.len) :
    is.Pairwise (fun i j => i.next ≤ j.bci) ∧ a ≤ z ∧ ∀ i ∈ is, a ≤ i.bci ∧ i.next ≤ z := by
  induction is generalizing a with
  | nil => exact ⟨.nil, Nat.le_of_eq h, by simp⟩
  | cons i is ih =>
    obtain ⟨rfl, h⟩ := h
    obtain ⟨hpair, hle, hbound⟩ := ih h fun j hj => hlen j (mem_cons_of_mem i hj)
    have hi : i.bci < i.next := Nat.lt_add_of_pos_right (hlen i mem_cons_self)
    refine ⟨pairwise_cons.2 ⟨fun j hj => (hbound j hj).1, hpair⟩, by omega, fun j hj => ?_⟩
    rcases mem_cons.1 hj with rfl | hj
    · exact ⟨Nat.le_refl _, hle⟩
    · have := hbound j hj
      omega

/-- What follows a part of a span starts where the part ends. -/
theorem Spans.next_of_append {js : List Instruction} {i j : Instruction}
    (h : Spans a (is ++ i :: j :: js) z) : j.bci = i.next := by
  obtain ⟨m, -, hm⟩ := spans_append.1 h
  exact hm.2.1

namespace Code

open SwitchTable (numbers targets)
open Instruction (OperandFits WideFits TableFits Encodable switchAt wideAt fixedAt)

variable {bci base : Nat} {b : UInt8} {bs cs : List UInt8} {i : Instruction} {op : Opcode} {o : Operand} {t : SwitchTable}
  {ws : List Int}

/-- How an instruction is read, by its opcode. -/
theorem decodeOne_cases (bci : Nat) (b : UInt8) (bs : List UInt8) :
    ((ofByte b).isDefined = false ∧ decodeOne bci b bs = .error (.unknownOpcode b bci)) ∨
    (ofByte b = .wide ∧ decodeOne bci b bs = decodeWide bci bs) ∨
    ((ofByte b).isSwitch = true ∧ decodeOne bci b bs = decodeSwitch bci (ofByte b) bs) ∨
    (ofByte b).isDefined = true ∧ ofByte b ≠ .wide ∧ (ofByte b).isSwitch = false ∧
      decodeOne bci b bs = if !hasBytes ((ofByte b).encoding.length - 1) bs then .error (.truncated bci)
        else .ok ⟨bci, ofByte b, (ofByte b).encoding.length, operand bci (ofByte b).encoding bs, false⟩ := by
  unfold decodeOne
  generalize ofByte b = op
  cases op with
  | undefined n => exact .inl ⟨rfl, rfl⟩
  | wide => exact .inr (.inl ⟨rfl, rfl⟩)
  | tableswitch | lookupswitch => exact .inr (.inr (.inl ⟨rfl, rfl⟩))
  | _ => exact .inr (.inr (.inr ⟨rfl, nofun, rfl, rfl⟩))

/-! ## Operands -/

theorem not_hasBytes_iff {n : Nat} : (!hasBytes n bs) = true ↔ bs.length < n := by
  rw [Bool.not_eq_true', Bool.eq_false_iff, ne_eq, hasBytes_iff, not_le]

theorem take_succ_eq (k : Nat) (bs : List UInt8) : bs.take (k + 1) = bs.take 1 ++ (bs.drop 1).take k := by
  rw [Nat.add_comm, take_add]

/-- An operand of fixed length fits, and its bytes follow its layout. -/
theorem operand_fits (bci : Nat) (e : Encoding) (he : e ≠ .varying) (h : e.length - 1 ≤ bs.length) :
    OperandFits bci e (operand bci e bs) ∧ Fits (operandLayout bci e (operand bci e bs)) (bs.take (e.length - 1)) := by
  have hs1 := s1_bounds bs
  have hs1' := s1_bounds (bs.drop 1)
  have hs2 := s2_bounds bs
  have hs4 := s4_bounds bs
  have hu1 := u1_le bs
  have hu1' := u1_le (bs.drop 2)
  have hu2 := u2_le bs
  cases e <;> simp only [Encoding.length, Nat.add_one_sub_one] at h <;>
    simp only [operand, OperandFits, operandLayout, Encoding.length, Nat.add_one_sub_one, Layout.fits_append, Layout.fits_fixed,
      Layout.fits_slack, add_sub_cancel_left]
  case none => exact ⟨trivial, .nil⟩
  case byte => exact ⟨hs1, (lowByte_s1 h).symm⟩
  case short | branchShort => exact ⟨hs2, (bytes2_s2 h).symm⟩
  case localIndex | poolByte => exact ⟨hu1, (lowByte_u1 h).symm⟩
  case poolShort => exact ⟨hu2, (bytes2_u2 h).symm⟩
  case branchLong => exact ⟨hs4, (bytes4_s4 h).symm⟩
  case arrayTag => exact ⟨by omega, (lowByte_u1 h).symm⟩
  case varying => exact absurd rfl he
  case increment =>
    refine ⟨⟨hu1, hs1'⟩, ?_⟩
    rw [take_succ_eq 1, ← lowByte_u1 (by omega), ← lowByte_s1 (by simp; omega)]
    rfl
  case dimensions =>
    refine ⟨⟨hu2, hu1'⟩, ?_⟩
    rw [take_add (i := 2) (j := 1), ← bytes2_u2 (by omega), ← lowByte_u1 (by simp; omega)]
  case interfaceCall =>
    refine ⟨⟨hu2, hu1'⟩, _, _, take_add (i := 3) (j := 1), ?_, by simp; omega⟩
    rw [take_add (i := 2) (j := 1), ← bytes2_u2 (by omega), ← lowByte_u1 (by simp; omega)]
  case dynamicCall =>
    exact ⟨hu2, _, _, take_add (i := 2) (j := 2), (bytes2_u2 (by omega)).symm, by simp; omega⟩

/-- An operand that fits is read from bytes that follow its layout. -/
theorem operand_eq {e : Encoding} (h : OperandFits bci e o) (hfits : Fits (operandLayout bci e o) bs) :
    operand bci e (bs ++ cs) = o := by
  cases e <;> cases o <;> simp only [OperandFits] at h <;>
    simp only [operandLayout, Layout.fits_append, Layout.fits_fixed, Layout.fits_slack] at hfits <;>
    simp only [operand]
  case byte.imm v =>
    subst hfits
    exact congrArg _ (s1_lowByte h.1 h.2)
  case short.imm v =>
    subst hfits
    exact congrArg _ (s2_bytes2 h.1 h.2)
  case localIndex.localVar n | poolByte.pool n =>
    subst hfits
    exact congrArg _ (u1_lowByte (by omega))
  case poolShort.pool n =>
    subst hfits
    exact congrArg _ (u2_bytes2 (by omega))
  case branchShort.branch t =>
    subst hfits
    rw [s2_bytes2 h.1 h.2, add_sub_cancel]
  case branchLong.branch t =>
    subst hfits
    rw [s4_bytes4 h.1 h.2, add_sub_cancel]
  case increment.increment n d =>
    subst hfits
    exact congrArg₂ _ (u1_lowByte (by omega)) (s1_lowByte h.2.1 h.2.2)
  case arrayTag.imm v =>
    subst hfits
    obtain ⟨n, rfl⟩ := Int.eq_ofNat_of_zero_le h.1
    rw [singleton_append, u1_lowByte (by omega)]
  case interfaceCall.poolCount n c =>
    obtain ⟨_, ds, rfl, rfl, -⟩ := hfits
    simp only [append_assoc]
    exact congrArg₂ _ (u2_bytes2 (by omega)) (u1_lowByte (by omega))
  case dynamicCall.pool n =>
    obtain ⟨_, ds, rfl, rfl, -⟩ := hfits
    rw [append_assoc, u2_bytes2 (by omega)]
  case dimensions.poolCount n c =>
    subst hfits
    simp only [append_assoc]
    exact congrArg₂ _ (u2_bytes2 (by omega)) (u1_lowByte (by omega))

/-! ## Switches -/

/-- The table of a `tableswitch` whose keys count from `low`, with relative targets. -/
def countingTable (bci : Nat) (fallback low : Int) (ws : List Int) : SwitchTable :=
  ⟨bci + fallback, ws.zipIdx.map fun (t, k) => (low + k, bci + t)⟩

theorem numbers_counting (fallback low : Int) (hws : ws ≠ []) :
    (countingTable bci fallback low ws).numbers bci .tableswitch = [fallback, low, low + ws.length - 1] ++ ws := by
  obtain ⟨w, ws, rfl⟩ := exists_cons_of_ne_nil hws
  simp [countingTable, numbers, SwitchTable.keys, Function.comp_def]

theorem keys_counting (fallback low : Int) (ws : List Int) :
    (countingTable bci fallback low ws).keys = (List.range ws.length).map fun k : Nat => low + k := by
  simp [countingTable, SwitchTable.keys, range_eq_range', ← zipIdx_map_snd, Function.comp_def]

theorem targets_counting (fallback low : Int) (ws : List Int) :
    (countingTable bci fallback low ws).targets = (fallback :: ws).map fun w => (bci : Int) + w := by
  have hws := congrArg (List.map fun w => (bci : Int) + w) (zipIdx_map_fst 0 ws)
  rw [map_map] at hws
  simp only [countingTable, targets, map_map, map_cons]
  exact congrArg _ hws

theorem counting_fits (fallback low : Int) (hws : ws ≠ [])
    (hrange : ∀ w ∈ [fallback, low, low + ws.length - 1] ++ ws, -2147483648 ≤ w ∧ w ≤ 2147483647) :
    TableFits bci .tableswitch (countingTable bci fallback low ws) := by
  refine ⟨rfl, ?_, ?_, fun _ => ⟨by simpa [countingTable] using hws, fun n c hc => ?_⟩⟩
  · rwa [numbers_counting fallback low hws]
  · rw [keys_counting, pairwise_map]
    exact pairwise_lt_range.imp fun h => by omega
  · have hhead : (countingTable bci fallback low ws).keys.headD 0 = low := by
      obtain ⟨w, ws, rfl⟩ := exists_cons_of_ne_nil hws
      simp [countingTable, SwitchTable.keys]
    simp only [countingTable, getElem?_map, getElem?_zipIdx, Option.map_eq_some_iff] at hc
    obtain ⟨⟨w, k⟩, ⟨w', -, hk⟩, rfl⟩ := hc
    cases hk
    rw [hhead, Nat.zero_add]

theorem eq_counting (h : TableFits bci .tableswitch t) :
    t = countingTable bci (t.fallback - bci) (t.keys.headD 0) (t.cases.map fun c => c.2 - (bci : Int)) := by
  obtain ⟨fallback, cases⟩ := t
  simp only [countingTable, SwitchTable.mk.injEq, add_sub_cancel, true_and]
  refine ext_getElem? fun n => ?_
  simp only [getElem?_map, getElem?_zipIdx, Option.map_map]
  cases hc : cases[n]? with
  | none => rfl
  | some c =>
    have hkey := (h.dense rfl).2 n c hc
    refine congrArg some (Prod.ext ?_ ?_)
    · rw [hkey, Nat.zero_add]
      rfl
    · simp

theorem numbers_pairs (fallback : Int) {n : Nat} (hws : ws.length = 2 * n) :
    numbers bci .lookupswitch ⟨bci + fallback, pairs bci ws⟩ = [fallback, (n : Int)] ++ ws := by
  have hlen : (pairs bci ws).length = n ∧ (pairs bci ws).flatMap (fun c => [c.1, c.2 - (bci : Int)]) = ws := by
    induction n generalizing ws with
    | zero =>
      obtain rfl := length_eq_zero_iff.1 hws
      exact ⟨rfl, rfl⟩
    | succ n ih =>
      obtain ⟨k, t, ws, rfl⟩ : ∃ k t ws', ws = k :: t :: ws' := by
        match ws, hws with
        | k :: t :: ws', _ => exact ⟨k, t, ws', rfl⟩
      have hlen : ws.length = 2 * n := by simp at hws; omega
      obtain ⟨hl, hf⟩ := ih hlen
      simp [pairs, hl, hf]
  simp [numbers, hlen.1, hlen.2]

theorem pairs_flatMap (cases : List (Int × Int)) : pairs bci (cases.flatMap fun c => [c.1, c.2 - (bci : Int)]) = cases := by
  induction cases with
  | nil => rfl
  | cons c cases ih => simp [pairs, ih]

theorem ascending_iff {l : List Int} : ascending l = true ↔ l.Pairwise (· < ·) := by
  rw [← isChain_iff_pairwise]
  fun_induction ascending l with
  | case1 a b l ih => simp [ih]
  | case2 l hl =>
    match l, hl with
    | [], _ => simp
    | [a], _ => simp
    | a :: b :: l, hl => exact absurd rfl (hl a b l)

theorem length_flatMap_bytes4 (ws : List Int) : (ws.flatMap bytes4).length = 4 * ws.length := by
  simp [length_flatMap, Nat.mul_comm]

theorem words_add_three (n : Nat) (bs : List UInt8) :
    words (3 + n) bs = [s4 bs, s4 (bs.drop 4), s4 (bs.drop 8)] ++ words n (bs.drop 12) := by
  rw [Nat.add_comm]
  simp [words, drop_drop]

theorem words_add_two (n : Nat) (bs : List UInt8) : words (2 + n) bs = [s4 bs, s4 (bs.drop 4)] ++ words n (bs.drop 8) := by
  rw [Nat.add_comm]
  simp [words, drop_drop]

/-- The numbers of a table that fits stand at the front of bytes, and a switch ends behind them. -/
def ReadsTable (bci base : Nat) (op : Opcode) (bs : List UInt8) (i : Instruction) : Prop :=
  ∃ t, i = ⟨bci, op, base + 4 * (t.numbers bci op).length - bci, .switch t, false⟩ ∧ TableFits bci op t ∧
    ∃ rest, bs = (t.numbers bci op).flatMap bytes4 ++ rest

/-- A table is read from the words in which its numbers stand. -/
theorem ReadsTable.of_words {n : Nat} (hnumbers : t.numbers bci op = words n bs) (hlen : 4 * n ≤ bs.length)
    (ht : (∀ w ∈ t.numbers bci op, -2147483648 ≤ w ∧ w ≤ 2147483647) → TableFits bci op t) :
    ReadsTable bci base op bs ⟨bci, op, base + 4 * n - bci, .switch t, false⟩ := by
  refine ⟨t, by rw [hnumbers, length_words], ht fun w hw => mem_words (hnumbers ▸ hw), bs.drop (4 * n), ?_⟩
  rw [hnumbers, flatMap_words hlen, take_append_drop]

theorem decodeTable_fits (h : decodeTable bci base bs = .ok i) : ReadsTable bci base .tableswitch bs i := by
  unfold decodeTable at h
  simp only [not_hasBytes_iff] at h
  split at h
  · cases h
  split at h
  · cases h
  split at h
  · cases h
  rename_i hlow hlen
  injection h with h
  generalize hn : (s4 (bs.drop 8) - s4 (bs.drop 4) + 1).toNat = n at h hlen
  have hwords := length_words n (bs.drop 12)
  have hne : words n (bs.drop 12) ≠ [] := by
    intro h
    simp only [h, length_nil] at hwords
    omega
  have hnumbers : (countingTable bci (s4 bs) (s4 (bs.drop 4)) (words n (bs.drop 12))).numbers bci .tableswitch = words (3 + n) bs := by
    rw [numbers_counting _ _ hne, words_add_three, hwords, show s4 (bs.drop 4) + n - 1 = s4 (bs.drop 8) by omega]
  rw [← h, Nat.add_assoc, show 12 + 4 * n = 4 * (3 + n) by omega]
  exact .of_words hnumbers (by omega) fun hrange => counting_fits _ _ hne (numbers_counting _ _ hne ▸ hrange)

theorem decodeTable_eq (h : TableFits bci .tableswitch t) :
    decodeTable bci base ((t.numbers bci .tableswitch).flatMap bytes4 ++ cs) =
      .ok ⟨bci, .tableswitch, base + 4 * (t.numbers bci .tableswitch).length - bci, .switch t, false⟩ := by
  have hrange := h.range
  have hne : t.cases.map (fun c => c.2 - (bci : Int)) ≠ [] := by simpa using (h.dense rfl).1
  rw [eq_counting h]
  rw [eq_counting h] at hrange
  generalize t.fallback - (bci : Int) = fallback, t.keys.headD 0 = low, t.cases.map (fun c => c.2 - (bci : Int)) = ws at *
  rw [numbers_counting _ _ hne] at hrange ⊢
  have hwords := words_flatMap cs hrange
  have hlength := length_flatMap_bytes4 ([fallback, low, low + ws.length - 1] ++ ws)
  have hcount : ([fallback, low, low + ws.length - 1] ++ ws).length = 3 + ws.length := by simp; omega
  have hpos := length_pos_iff.2 hne
  rw [hcount] at hwords hlength ⊢
  generalize hbs : ([fallback, low, low + ws.length - 1] ++ ws).flatMap bytes4 ++ cs = bs at *
  have hbytes : bs.length = 4 * (3 + ws.length) + cs.length := by rw [← hbs, length_append, hlength]
  rw [words_add_three] at hwords
  simp only [cons_append, nil_append, List.cons.injEq] at hwords
  obtain ⟨hfallback, hlow, hhigh, hws⟩ := hwords
  have hn : (low + ws.length - 1 - low + 1).toNat = ws.length := by omega
  unfold decodeTable
  simp only [not_hasBytes_iff]
  rw [if_neg (by omega), hlow, hhigh, if_neg (by omega), hn, if_neg (by omega), hws, hfallback,
    show 4 * (3 + ws.length) = 12 + 4 * ws.length by omega, ← Nat.add_assoc]
  rfl

theorem decodeLookup_fits (h : decodeLookup bci base bs = .ok i) : ReadsTable bci base .lookupswitch bs i := by
  unfold decodeLookup at h
  simp only [not_hasBytes_iff] at h
  split at h
  · cases h
  split at h
  · cases h
  split at h
  swap
  · cases h
  rename_i hcount hlen hkeys
  injection h with h
  generalize hn : (s4 (bs.drop 4)).toNat = n at h hlen hkeys
  have hnumbers : numbers bci .lookupswitch ⟨bci + s4 bs, pairs bci (words (2 * n) (bs.drop 8))⟩ = words (2 + 2 * n) bs := by
    rw [numbers_pairs _ (length_words _ _), words_add_two, show s4 (bs.drop 4) = n by omega]
  rw [← h, Nat.add_assoc, show 8 + 8 * n = 4 * (2 + 2 * n) by omega]
  exact .of_words hnumbers (by omega) fun hrange => ⟨rfl, hrange, ascending_iff.1 hkeys, nofun⟩

theorem decodeLookup_eq (h : TableFits bci .lookupswitch t) :
    decodeLookup bci base ((t.numbers bci .lookupswitch).flatMap bytes4 ++ cs) =
      .ok ⟨bci, .lookupswitch, base + 4 * (t.numbers bci .lookupswitch).length - bci, .switch t, false⟩ := by
  have hwords := words_flatMap cs h.range
  have hlength := length_flatMap_bytes4 (t.numbers bci .lookupswitch)
  have hnumbers : t.numbers bci .lookupswitch =
    [t.fallback - bci, (t.cases.length : Int)] ++ t.cases.flatMap fun c => [c.1, c.2 - (bci : Int)] := rfl
  have hcount : (t.numbers bci .lookupswitch).length = 2 + 2 * t.cases.length := by
    rw [hnumbers]
    simp
    omega
  rw [hcount] at hwords hlength ⊢
  generalize hbs : (t.numbers bci .lookupswitch).flatMap bytes4 ++ cs = bs at *
  have hbytes : bs.length = 4 * (2 + 2 * t.cases.length) + cs.length := by rw [← hbs, length_append, hlength]
  rw [words_add_two, hnumbers] at hwords
  simp only [cons_append, nil_append, List.cons.injEq] at hwords
  obtain ⟨hfallback, hn, hpairs⟩ := hwords
  unfold decodeLookup
  simp only [not_hasBytes_iff]
  rw [hn, if_neg (by omega), Int.toNat_natCast, if_neg (by omega), hpairs, hfallback, pairs_flatMap, add_sub_cancel,
    if_pos (ascending_iff.2 h.ascending), show 4 * (2 + 2 * t.cases.length) = 8 + 8 * t.cases.length by omega, ← Nat.add_assoc]

/-! ## Instructions -/

theorem isSwitch_cases (h : op.isSwitch = true) : op = .tableswitch ∨ op = .lookupswitch := by
  cases op <;> simp_all [isSwitch]

theorem decodeSwitch_fits (hop : op.isSwitch = true) (h : decodeSwitch bci op bs = .ok i) :
    ∃ t, i = switchAt bci op t ∧ TableFits bci op t ∧
      ∃ pad rest, pad.length = padding bci ∧ bs = pad ++ (t.numbers bci op).flatMap bytes4 ++ rest := by
  unfold decodeSwitch at h
  simp only [not_hasBytes_iff] at h
  split at h
  · cases h
  rename_i hlen
  rw [not_lt, length_drop] at hlen
  have hpad : (bs.take (padding bci)).length = padding bci := by simp; omega
  obtain ⟨t, rfl, ht, rest, hrest⟩ : ReadsTable bci (bci + 1 + padding bci) op (bs.drop (padding bci)) i := by
    rcases isSwitch_cases hop with rfl | rfl
    · rw [if_pos rfl] at h
      exact decodeTable_fits h
    · rw [if_neg nofun] at h
      exact decodeLookup_fits h
  refine ⟨t, ?_, ht, bs.take (padding bci), rest, hpad, ?_⟩
  · rw [switchAt, show bci + 1 + padding bci + 4 * (t.numbers bci op).length - bci = 1 + padding bci + 4 * (t.numbers bci op).length by omega]
  · rw [append_assoc, ← hrest, take_append_drop]

theorem decodeSwitch_eq {pad : List UInt8} (h : TableFits bci op t) (hpad : pad.length = padding bci) :
    decodeSwitch bci op (pad ++ ((t.numbers bci op).flatMap bytes4 ++ cs)) = .ok (switchAt bci op t) := by
  have hnumbers : 2 ≤ (t.numbers bci op).length := by
    unfold numbers
    split <;> simp
  unfold decodeSwitch
  simp only [not_hasBytes_iff]
  rw [← hpad, drop_left, if_neg (by rw [length_append, length_flatMap_bytes4]; omega), switchAt,
    show 1 + padding bci + 4 * (t.numbers bci op).length = bci + 1 + padding bci + 4 * (t.numbers bci op).length - bci by omega, hpad]
  rcases isSwitch_cases h.switch with rfl | rfl
  · rw [if_pos rfl, decodeTable_eq h]
  · rw [if_neg nofun, decodeLookup_eq h]

theorem decodeWide_fits (h : decodeWide bci bs = .ok i) :
    ∃ op o, i = wideAt bci op o ∧ WideFits op o ∧ ∃ own rest, bs = op.byte :: own ++ rest ∧ Fits (wideLayout o) own := by
  unfold decodeWide at h
  simp only [not_hasBytes_iff] at h
  split at h
  · cases h
  rename_i hlen
  obtain ⟨b, bs, rfl⟩ := exists_cons_of_length_pos (show 0 < bs.length by omega)
  have hu2 := u2_le bs
  have hs2 := s2_bounds (bs.drop 2)
  have hbyte := byte_ofByte b
  simp only [headD_cons, drop_succ_cons, drop_zero, length_cons] at h hlen
  split at h
  case h_1 hop =>
    split at h
    · cases h
    cases h
    rename_i hlen
    refine ⟨ofByte b, .increment (u2 bs) (s2 (bs.drop 2)), rfl, ?_, bs.take 4, bs.drop 4, ?_, ?_⟩
    · rw [hop]
      exact ⟨hu2, hs2⟩
    · rw [hbyte, cons_append, take_append_drop]
    · rw [wideLayout, Layout.fits_fixed, take_add (i := 2) (j := 2), bytes2_u2 (by omega), bytes2_s2 (by simp; omega)]
  case h_5 => cases h
  all_goals
    rename_i hop
    cases h
    refine ⟨ofByte b, .localVar (u2 bs), rfl, ?_, bs.take 2, bs.drop 2, ?_, ?_⟩
    · rw [hop]
      exact hu2
    · rw [hbyte, cons_append, take_append_drop]
    · rw [wideLayout, Layout.fits_fixed, bytes2_u2 (by omega)]

theorem wideFits_cases (h : WideFits op o) : (op = .iinc ∧ ∃ n d, o = .increment n d ∧ n ≤ 65535 ∧ -32768 ≤ d ∧ d ≤ 32767) ∨
      (op = .ret ∨ ∃ k, op = .load k ∨ op = .store k) ∧ ∃ n, o = .localVar n ∧ n ≤ 65535 := by
  match op, o, h with
  | .iinc, .increment n d, h => exact .inl ⟨rfl, n, d, rfl, h⟩
  | .load k, .localVar n, h => exact .inr ⟨.inr ⟨k, .inl rfl⟩, n, rfl, h⟩
  | .store k, .localVar n, h => exact .inr ⟨.inr ⟨k, .inr rfl⟩, n, rfl, h⟩
  | .ret, .localVar n, h => exact .inr ⟨.inl rfl, n, rfl, h⟩

theorem decodeWide_eq {own : List UInt8} (h : WideFits op o) (hfits : Fits (wideLayout o) own) :
    decodeWide bci (op.byte :: own ++ cs) = .ok (wideAt bci op o) := by
  have hop : ofByte op.byte = op := by
    refine ofByte_byte ?_
    rcases wideFits_cases h with ⟨rfl, -⟩ | ⟨rfl | ⟨k, rfl | rfl⟩, -⟩ <;> rfl
  unfold decodeWide
  simp only [not_hasBytes_iff, cons_append, headD_cons, drop_succ_cons,
    drop_zero, hop]
  rcases wideFits_cases h with ⟨rfl, n, d, rfl, hn, hlo, hhi⟩ | ⟨hop, n, rfl, hn⟩ <;> rw [wideLayout, Layout.fits_fixed] at hfits <;>
    subst hfits
  · rw [if_neg (by simp), append_assoc, u2_bytes2 (by omega)]
    rw [if_neg (by simp; omega), show (bytes2 n ++ (bytes2 d ++ cs)).drop 2 = bytes2 d ++ cs from rfl, s2_bytes2 hlo hhi]
    rfl
  · rw [if_neg (by simp), u2_bytes2 (by omega)]
    rcases hop with rfl | ⟨k, rfl | rfl⟩ <;> rfl

theorem decodeOne_of_fixed (hb : ofByte b = op) (hdef : op.isDefined = true) (hop : op.encoding ≠ .varying) :
    decodeOne bci b bs = if op.encoding.length - 1 ≤ bs.length then .ok (fixedAt bci op (operand bci op.encoding bs))
      else .error (.truncated bci) := by
  subst hb
  rcases decodeOne_cases bci b bs with ⟨hno, -⟩ | ⟨hw, -⟩ | ⟨hs, -⟩ | ⟨-, -, -, heq⟩
  · rw [hno] at hdef
    cases hdef
  · rw [hw] at hop
    exact absurd rfl hop
  · rcases isSwitch_cases hs with hop' | hop' <;> exact absurd (congrArg encoding hop') hop
  · rw [heq]
    simp only [not_hasBytes_iff, ← not_le, ite_not, fixedAt]

theorem encoding_varying (h : op.encoding = .varying) : op = .wide ∨ op.isSwitch = true := by
  unfold encoding at h
  split at h <;> simp_all [isSwitch]

theorem operandFits_plain {e : Encoding} (h : OperandFits bci e o) : e ≠ .varying ∧ (∀ t, o ≠ .switch t) ∧
    (operandLayout bci e o).length = e.length - 1 := by
  cases e <;> cases o <;> simp_all [OperandFits, operandLayout, Encoding.length, fixed, slack]

theorem layout_switchAt (op : Opcode) (t : SwitchTable) : (switchAt bci op t).layout =
    some op.byte :: (slack (padding bci) ++ fixed ((t.numbers bci op).flatMap bytes4)) := rfl

theorem layout_wideAt (h : WideFits op o) :
    (wideAt bci op o).layout = some wide.byte :: some op.byte :: wideLayout o := by
  rcases wideFits_cases h with ⟨-, n, d, rfl, -⟩ | ⟨-, n, rfl, -⟩ <;> rfl

theorem layout_fixedAt (h : OperandFits bci op.encoding o) :
    (fixedAt bci op o).layout = some op.byte :: operandLayout bci op.encoding o := by
  have hplain := (operandFits_plain h).2.1
  cases o <;> first | rfl | exact absurd rfl (hplain _)

theorem decodeOne_switch (hb : ofByte b = op) (hop : op.isSwitch = true) :
    decodeOne bci b bs = decodeSwitch bci op bs := by
  unfold decodeOne
  rcases isSwitch_cases hop with rfl | rfl <;> rw [hb]

theorem decodeOne_wide (hb : ofByte b = .wide) : decodeOne bci b bs = decodeWide bci bs := by
  unfold decodeOne
  rw [hb]

theorem isDefined_of_decodeOne (h : decodeOne bci b bs = .ok i) : (ofByte b).isDefined = true := by
  rcases decodeOne_cases bci b bs with ⟨-, heq⟩ | ⟨hw, -⟩ | ⟨hs, -⟩ | ⟨hdef, -⟩
  · cases heq.symm.trans h
  · rw [hw]
    rfl
  · rcases isSwitch_cases hs with hop | hop <;> (rw [hop]; rfl)
  · exact hdef

/-- An instruction is read from bytes that follow its layout. -/
theorem decodeOne_fits (h : decodeOne bci b bs = .ok i) :
    i.bci = bci ∧ i.Encodable ∧ ∃ own rest, b :: bs = own ++ rest ∧ Fits i.layout own := by
  have hbyte := byte_ofByte b
  have hdef := isDefined_of_decodeOne h
  by_cases henc : (ofByte b).encoding = .varying
  · rcases encoding_varying henc with hop | hop
    · rw [decodeOne_wide hop] at h
      obtain ⟨op, o, rfl, hfits, own, rest, rfl, hown⟩ := decodeWide_fits h
      refine ⟨rfl, .wide hfits, b :: op.byte :: own, rest, rfl, ?_⟩
      rw [layout_wideAt hfits, ← hbyte, hop]
      exact .cons (.inr rfl) (.cons (.inr rfl) hown)
    · rw [decodeOne_switch rfl hop] at h
      obtain ⟨t, rfl, hfits, pad, rest, hpad, rfl⟩ := decodeSwitch_fits hop h
      refine ⟨rfl, .switch hfits, b :: (pad ++ (t.numbers bci (ofByte b)).flatMap bytes4), rest, rfl, ?_⟩
      exact .cons (.inr (congrArg some hbyte)) (Layout.fits_append.2 ⟨pad, _, rfl, Layout.fits_slack.2 hpad, Layout.fits_fixed.2 rfl⟩)
  · rw [decodeOne_of_fixed rfl hdef henc] at h
    split at h
    swap
    · cases h
    cases h
    rename_i hlen
    obtain ⟨hfits, hown⟩ := operand_fits bci _ henc hlen
    refine ⟨rfl, .fixed hdef hfits, b :: bs.take ((ofByte b).encoding.length - 1), bs.drop ((ofByte b).encoding.length - 1),
      by rw [cons_append, take_append_drop], ?_⟩
    rw [layout_fixedAt hfits, hbyte]
    exact .cons (.inr rfl) hown

/-- An instruction that has an encoding is read from any bytes that follow its layout, whatever is behind them. -/
theorem decodeOne_eq {own : List UInt8} (h : i.Encodable) (hfits : Fits i.layout (b :: own)) :
    decodeOne i.bci b (own ++ cs) = .ok i := by
  cases h with
  | @switch bci op t ht =>
    have hdef : op.isDefined = true := by rcases isSwitch_cases ht.switch with rfl | rfl <;> rfl
    rw [layout_switchAt, Layout.fits_cons, Layout.fits_append] at hfits
    obtain ⟨rfl, pad, table, rfl, hpad, htable⟩ := hfits
    rw [Layout.fits_fixed.1 htable, decodeOne_switch (ofByte_byte hdef) ht.switch, append_assoc]
    exact decodeSwitch_eq ht (Layout.fits_slack.1 hpad)
  | @wide bci op o ho =>
    rw [layout_wideAt ho, Layout.fits_cons] at hfits
    obtain ⟨rfl, hbody⟩ := hfits
    obtain ⟨own, rfl, hown⟩ := Layout.fits_cons_iff.1 hbody
    rw [decodeOne_wide (ofByte_byte rfl)]
    exact decodeWide_eq ho hown
  | @fixed bci op o hdef ho =>
    obtain ⟨henc, -, hlen⟩ := operandFits_plain ho
    rw [layout_fixedAt ho, Layout.fits_cons] at hfits
    obtain ⟨rfl, hfits⟩ := hfits
    have hown := hfits.length
    change decodeOne bci _ _ = _
    rw [decodeOne_of_fixed (ofByte_byte hdef) hdef henc, if_pos (by rw [length_append]; omega), operand_eq ho hfits]

end Code
end Bytelift
