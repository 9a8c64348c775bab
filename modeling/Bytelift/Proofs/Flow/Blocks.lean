import Bytelift.Flow.Partition
import Bytelift.Proofs.Code.Tiling
import Bytelift.Proofs.Traversals

/-!
# Partitions

A partition cuts the instructions of a method into consecutive blocks. Only the last instruction of a
block transfers control.

`Cut` is the invariant of the walk that makes the blocks: it says where the blocks of the remaining
instructions lie. What is looked up in the bitmap of a partition is whether an instruction starts.

Results:
* `Bitmap.isSet_ofInstructions`: the bits that are set are those of the instructions;
* `Partition.ofInstructions_eq_ok_iff`: what a partition is made from;
* `Partition.walk_cut`: the walk cuts the instructions at the block starts;
* `Partition.ofMethod_tiled`: a partition covers the decoded code, block by block in order;
* `Partition.Tiled.stop_le_start`: the blocks follow each other;
* `Partition.Tiled.blockAt?_start`: a block is found by its start.
-/

namespace Bytelift

open List Code HandlerTable

/-- Whether control goes on behind an instruction whatever it computes. -/
def Opcode.falls (op : Opcode) : Bool := !op.isConditional && !op.endsBlock

/-- A block is a span of instructions of which only the last one transfers control. -/
structure CodeBlock.Straight (b : CodeBlock) : Prop where
  spans : Spans b.start b.insts b.stop
  split : ∃ init last, b.insts = init ++ [last] ∧
    (∀ i ∈ init, i.op.isBranch = false ∧ i.op.isSwitch = false ∧ i.op.endsBlock = false) ∧
    b.fall = if last.op.endsBlock then none else some last.next

theorem Opcode.falls_of_straight {op : Opcode} (hb : op.isBranch = false) (he : op.endsBlock = false) :
    op.falls = true := by
  simp [falls, he, (Bool.or_eq_false_iff.1 hb).1]

/-- The blocks of a partition are straight and make up its instructions, which are a span. -/
structure Partition.Tiled (p : Partition) : Prop where
  cover : p.blocks.flatMap (·.insts) = p.insts
  spans : ∃ z, Spans 0 p.insts z
  proper : ∀ i ∈ p.insts, 0 < i.len ∧ (i.op.isSwitch = true → ∃ t, i.operand = .switch t)
  straight : ∀ b ∈ p.blocks, b.Straight

/-- A reason for which a partition is refused. -/
def Reason.IsFlaw : Reason → Prop
  | .emptyCode | .emptyRange .. | .entryStart _ | .entryStop _ | .entryHandler _ | .entryBoth _
  | .branchTarget .. | .fallsOff => True
  | _ => False

/-- How a block of code of the given length ends. -/
structure CodeBlock.Ends (L : Nat) (b : CodeBlock) (last : Instruction) : Prop where
  ends : b.insts.getLast? = some last
  stop : b.stop = last.next
  succs : b.succs = last.targets ++ (b.fall.map Int.ofNat).toList
  fall : b.fall = if last.op.endsBlock then none else some last.next
  inside : ∀ n, b.fall = some n → n < L

/-! ## Bits -/

namespace Bitmap

variable {L : Nat} {bits : Bitmap}

theorem isBit_eq (v : UInt8) {k : Nat} (hk : k < 8) :
    (v >>> k.toUInt8 &&& 1 == 1) = v.toNat.testBit k := by
  have hk : k.toUInt8.toNat % 8 = k := by simp; omega
  have hone : (1 : UInt8).toNat = 1 := rfl
  rw [Bool.eq_iff_iff, beq_iff_eq, ← UInt8.toNat_inj, UInt8.toNat_and, UInt8.toNat_shiftRight, hk,
    hone, Nat.and_one_is_mod, Nat.testBit, Nat.one_and_eq_mod_two]
  simp

theorem testBit_or_shift (v : UInt8) {r k : Nat} (hr : r < 8) (hk : k < 8) :
    (v ||| 1 <<< r.toUInt8).toNat.testBit k = (v.toNat.testBit k || decide (r = k)) := by
  have hr : r.toUInt8.toNat % 8 = r := by simp; omega
  have hone : (1 : UInt8).toNat = 1 := rfl
  rw [UInt8.toNat_or, Nat.testBit_or, UInt8.toNat_shiftLeft, hr, hone, Nat.testBit_mod_two_pow,
    Nat.one_shiftLeft, Nat.testBit_two_pow, decide_eq_true hk, Bool.true_and]

theorem isSet_natCast {x : Nat} (hx : x / 8 < bits.size) :
    bits.isSet x = (bits.getD (x / 8) 0).toNat.testBit (x % 8) := by
  unfold isSet
  rw [if_neg (by omega), ← isBit_eq _ (Nat.mod_lt x (by decide))]
  rfl

theorem size_mark (bits : Bitmap) (n : Nat) : (bits.mark n).size = bits.size :=
  Array.size_setIfInBounds

theorem isSet_mark {n : Nat} (hn : n / 8 < bits.size) (x : Int) :
    (bits.mark n).isSet x = (bits.isSet x || decide (x = n)) := by
  by_cases hout : x < 0 ∨ bits.size ≤ x / 8
  · have hne : x ≠ n := by omega
    simp [isSet, size_mark, hout, hne]
  obtain ⟨k, rfl⟩ := Int.eq_ofNat_of_zero_le (show 0 ≤ x by omega)
  have hk : k / 8 < bits.size := by omega
  rw [isSet_natCast (by rwa [size_mark]), isSet_natCast hk, mark]
  simp only [Array.getD_eq_getD_getElem?, Array.getElem?_setIfInBounds]
  by_cases hsame : n / 8 = k / 8
  · have hbit : n % 8 = k % 8 ↔ (k : Int) = n := by omega
    rw [if_pos hsame, if_pos hn, Option.getD_some, hsame,
      testBit_or_shift _ (Nat.mod_lt n (by decide)) (Nat.mod_lt k (by decide)), decide_eq_decide.2 hbit]
  · have hne : (k : Int) ≠ n := by omega
    rw [if_neg hsame, decide_eq_false hne, Bool.or_false]

theorem isSet_new (x : Int) : (new L).isSet x = false := by
  unfold isSet
  split
  · rfl
  · rename_i hin
    have hlt : (x / 8).toNat < L / 8 + 1 := by simp [new] at hin; omega
    simp [new, Array.getD, hlt]

theorem isSet_foldl {insts : List Instruction} (hin : ∀ i ∈ insts, i.bci / 8 < bits.size) (x : Int) :
    (insts.foldl (fun bits i => bits.mark i.bci) bits).isSet x = true ↔
      bits.isSet x = true ∨ ∃ i ∈ insts, (i.bci : Int) = x := by
  induction insts generalizing bits with
  | nil => simp
  | cons i is ih =>
    obtain ⟨hi, his⟩ := forall_mem_cons.1 hin
    rw [foldl_cons, ih (by rwa [size_mark]), isSet_mark hi]
    rw [Bool.or_eq_true, decide_eq_true_iff, or_assoc, exists_mem_cons_iff, eq_comm (a := x)]

theorem isSet_ofInstructions {insts : List Instruction} (hin : ∀ i ∈ insts, i.bci < L) (x : Int) :
    (ofInstructions L insts).isSet x = true ↔ ∃ i ∈ insts, (i.bci : Int) = x := by
  have hsize : (new L).size = L / 8 + 1 := Array.size_replicate
  unfold ofInstructions
  rw [isSet_foldl, isSet_new]
  · simp
  · intro i hi
    have := hin i hi
    omega

end Bitmap

namespace Partition

variable {L : Nat} {table : HandlerTable} {insts : List Instruction} {p : Partition}
  {i last : Instruction} {m : Method}

/-! ## What is checked first -/

/-- An instruction starts at a bci. -/
def Boundary (insts : List Instruction) (x : Int) : Prop := ∃ i ∈ insts, (i.bci : Int) = x

/-- A row of the exception table suits code of the given length: its range is not empty, instructions
start at its borders and at its handler, and it does not both catch and clean up. The range may end
with the code. -/
structure RowFits (L : Nat) (insts : List Instruction) (e : ExceptionEntry) : Prop where
  range : e.start < e.stop
  start : Boundary insts e.start
  stop : e.stop = L ∨ Boundary insts e.stop
  handler : Boundary insts e.handler
  plain : e.isCleanup = true → e.catchType = []

section

variable {bits : Bitmap} (hbits : ∀ x, bits.isSet x = true ↔ Boundary insts x)

include hbits

theorem entryFault?_eq_none_iff {e : ExceptionEntry} {n : Nat} :
    entryFault? L bits.isSet e n = none ↔ RowFits L insts e := by
  unfold entryFault?
  constructor
  · intro h
    split at h
    · cases h
    split at h
    · cases h
    split at h
    · cases h
    split at h
    · cases h
    split at h
    · cases h
    rename_i hrange hstart hstop hhandler hplain
    simp only [Bool.not_eq_true', Bool.not_eq_false, hbits] at hstart hhandler
    refine ⟨by omega, hstart, ?_, hhandler, fun hc => ?_⟩
    · rw [← hbits]
      simpa [or_iff_not_imp_left] using hstop
    · simpa [hc] using hplain
  · intro h
    have hstop : ¬ (e.stop ≠ L ∧ (!bits.isSet e.stop) = true) := fun hno =>
      h.stop.elim hno.1 fun hb => by simp [(hbits _).2 hb] at hno
    rw [if_neg (by have := h.range; omega), if_neg (by simp [(hbits _).2 h.start]), if_neg hstop,
      if_neg (by simp [(hbits _).2 h.handler]), if_neg fun hboth => hboth.2 (h.plain hboth.1)]

theorem fault?_eq_none_iff :
    table.fault? L bits.isSet = none ↔ ∀ e ∈ table, RowFits L insts e := by
  unfold fault?
  rw [findSome?_eq_none_iff]
  constructor
  · intro h e he
    obtain ⟨n, hn⟩ := getElem?_of_mem he
    exact (entryFault?_eq_none_iff hbits).1 (h (e, n) (mk_mem_zipIdx_iff_getElem?.2 hn))
  · intro h x hx
    exact (entryFault?_eq_none_iff hbits).2
      (h x.1 (mem_of_getElem? (mk_mem_zipIdx_iff_getElem?.1 hx)))

theorem targetFault?_eq_none_iff :
    targetFault? bits insts = none ↔ ∀ i ∈ insts, ∀ t ∈ i.targets, Boundary insts t := by
  simp [targetFault?, hbits]

end

theorem bci_lt {code : List UInt8} (hcode : decode code = .ok insts) (hi : i ∈ insts) :
    i.bci < code.length := by
  obtain ⟨hspan, hproper⟩ := decode_spans hcode
  have hnext := ((hspan.pairwise fun i hi => (hproper i hi).1).2.2 i hi).2
  exact Nat.lt_of_lt_of_le (Nat.lt_add_of_pos_right (hproper i hi).1) hnext

/-- What a partition is made from. -/
theorem ofInstructions_eq_ok_iff {code : List UInt8} (hcode : decode code = .ok insts) :
    ofInstructions code.length table insts = .ok p ↔
      insts ≠ [] ∧ (∀ e ∈ table, RowFits code.length insts e) ∧
      (∀ i ∈ insts, ∀ t ∈ i.targets, Boundary insts t) ∧ p.insts = insts ∧
      p.starts = .ofInstructions code.length insts ∧
      (walk code.length (sortedLeaders code.length table insts) 0 insts).mapM (link code.length) =
        .ok p.blocks := by
  have hbits := Bitmap.isSet_ofInstructions fun i hi => bci_lt hcode hi
  rw [← fault?_eq_none_iff hbits, ← targetFault?_eq_none_iff hbits]
  unfold ofInstructions
  generalize Bitmap.ofInstructions code.length insts = bits
  cases hne : insts.isEmpty with
  | true => simp [List.isEmpty_iff.1 hne]
  | false =>
    rw [if_neg (by simp)]
    dsimp only
    cases hfault : table.fault? code.length bits.isSet with
    | some e => simp
    | none =>
      cases htarget : targetFault? bits insts with
      | some e => simp
      | none =>
        obtain ⟨bs, is, marks⟩ := p
        dsimp only
        generalize mapM (link code.length) _ = blocks
        cases blocks with
        | error e => simp
        | ok blocks =>
          simp only [Except.ok.injEq, mk.injEq]
          refine ⟨fun h => ?_, fun h => ⟨h.2.2.2.2.2, h.2.2.2.1.symm, h.2.2.2.2.1.symm⟩⟩
          exact ⟨isEmpty_eq_false_iff.1 hne, trivial, trivial, h.2.1.symm, h.2.2.symm, h.1⟩

/-! ## Where blocks start -/

/-- Control leaves the straight line behind an instruction: it is a branch or a switch, it ends a
block, or it is a call in a protected range. -/
def Splits (table : HandlerTable) (i : Instruction) : Prop :=
  i.op.isBranch = true ∨ i.op.isSwitch = true ∨ i.op.endsBlock = true ∨
    i.op.isInvoke = true ∧ ∃ e ∈ table, e.start ≤ i.bci ∧ (i.bci : Int) < e.stop

theorem splitsAfter_iff {i : Instruction} : splitsAfter table i = true ↔ Splits table i := by
  simp [splitsAfter, Splits, HandlerTable.isProtected, ExceptionEntry.covers, or_assoc]

/-- A bci at which a block has to start: the first one, a destination, a border of a row of the
exception table or its handler, and what is behind an instruction that transfers control or a call
in a protected range. -/
inductive Starts (L : Nat) (table : HandlerTable) (insts : List Instruction) : Int → Prop
  | entry : Starts L table insts 0
  | target {i : Instruction} {t} : i ∈ insts → t ∈ i.targets → Starts L table insts t
  | rowStart {e} : e ∈ table → Starts L table insts e.start
  | handler {e} : e ∈ table → Starts L table insts e.handler
  | rowStop {e} : e ∈ table → e.stop < L → Starts L table insts e.stop
  | behind {i : Instruction} : i ∈ insts → i.next < L → Splits table i → Starts L table insts i.next

variable {x : Int}

theorem mem_leaders : x ∈ leaders L table insts ↔ Starts L table insts x := by
  unfold leaders
  simp only [cons_append, mem_cons, mem_append, mem_flatMap, entryLeaders, instructionLeaders]
  constructor
  · rintro (rfl | ⟨e, he, hx⟩ | ⟨i, hi, hx⟩)
    · exact .entry
    · split at hx
      · rename_i hstop
        simp only [mem_cons, not_mem_nil, or_false] at hx
        obtain rfl | rfl | rfl := hx
        · exact .rowStart he
        · exact .handler he
        · exact .rowStop he hstop
      · simp only [mem_cons, not_mem_nil, or_false] at hx
        obtain rfl | rfl := hx
        · exact .rowStart he
        · exact .handler he
    · split at hx
      · rename_i hsplit
        simp only [Bool.and_eq_true, decide_eq_true_eq] at hsplit
        obtain rfl | hx := mem_cons.1 hx
        · exact .behind hi hsplit.2 (splitsAfter_iff.1 hsplit.1)
        · exact .target hi hx
      · exact .target hi hx
  · intro h
    cases h with
    | entry => exact .inl rfl
    | @target i t hi ht =>
      refine .inr (.inr ⟨i, hi, ?_⟩)
      split
      · exact mem_cons_of_mem _ ht
      · exact ht
    | @rowStart e he | @handler e he =>
      refine .inr (.inl ⟨e, he, ?_⟩)
      split <;> simp
    | @rowStop e he hlt =>
      refine .inr (.inl ⟨e, he, ?_⟩)
      simp [hlt]
    | @behind i hi hlt hs =>
      refine .inr (.inr ⟨i, hi, ?_⟩)
      simp [splitsAfter_iff.2 hs, hlt]

theorem mem_addLeader {y : Int} {l : List Int} : y ∈ addLeader x l ↔ y = x ∨ y ∈ l := by
  fun_induction addLeader x l <;> grind

theorem ascending_addLeader {l : List Int} (h : l.Pairwise (· < ·)) :
    (addLeader x l).Pairwise (· < ·) := by
  fun_induction addLeader x l with
  | case1 => simp
  | case2 y ys hlt =>
    refine pairwise_cons.2 ⟨fun z hz => ?_, h⟩
    rcases mem_cons.1 hz with rfl | hz
    · exact hlt
    · exact hlt.trans ((pairwise_cons.1 h).1 z hz)
  | case3 => exact h
  | case4 y ys hlt hne ih =>
    obtain ⟨hy, hys⟩ := pairwise_cons.1 h
    refine pairwise_cons.2 ⟨fun z hz => ?_, ih hys⟩
    rcases mem_addLeader.1 hz with rfl | hz
    · omega
    · exact hy z hz

theorem mem_sortedLeaders : x ∈ sortedLeaders L table insts ↔ Starts L table insts x := by
  rw [← mem_leaders, sortedLeaders]
  induction leaders L table insts with
  | nil => simp
  | cons y l ih => rw [foldr_cons, mem_addLeader, ih, mem_cons]

theorem ascending_sortedLeaders : (sortedLeaders L table insts).Pairwise (· < ·) := by
  unfold sortedLeaders
  induction leaders L table insts with
  | nil => exact .nil
  | cons y l ih => exact ascending_addLeader ih

theorem Starts.inst (h : Starts L table insts x) (hspan : Spans 0 insts L) (hne : insts ≠ [])
    (hrows : ∀ e ∈ table, RowFits L insts e) (htargets : ∀ i ∈ insts, ∀ t ∈ i.targets, Boundary insts t) : Boundary insts x := by
  cases h with
  | entry =>
    obtain ⟨i, is, rfl⟩ := exists_cons_of_ne_nil hne
    exact ⟨i, mem_cons_self, by simp [hspan.1]⟩
  | target hi ht => exact htargets _ hi _ ht
  | rowStart he => exact (hrows _ he).start
  | handler he => exact (hrows _ he).handler
  | rowStop he hlt => exact (hrows _ he).stop.resolve_left (by omega)
  | @behind i hi hlt _ =>
    obtain ⟨l, r, rfl⟩ := append_of_mem hi
    cases r with
    | nil =>
      obtain ⟨m, -, hm⟩ := spans_append.1 hspan
      exact absurd (show i.next = L from hm.2) (by omega)
    | cons j r => exact ⟨j, by simp, congrArg _ hspan.next_of_append⟩

/-! ## The walk over the instructions -/

/-- Blocks cut the instructions from a bci and a position on. -/
def Cut (L : Nat) : (bci pos : Nat) → List CodeBlock → List Instruction → Prop
  | a, _, [], is => is = [] ∧ a = L
  | a, n, b :: bs, is => b.start = a ∧ b.first = n ∧ b.insts ≠ [] ∧ Spans b.start b.insts b.stop ∧
      ∃ rest, is = b.insts ++ rest ∧ Cut L b.stop (n + b.insts.length) bs rest

/-- The cursor stops at the first instruction of a block, and the block ends where the next one
starts. -/
theorem walk_cons {x y n : Nat} {ys : List Int} {l more r : List Instruction}
    (hl : ∀ i ∈ l, i.bci < x) (hi : i.bci = x) (hmore : ∀ i ∈ more, i.bci < y)
    (hr : ∀ i, r.head? = some i → y ≤ i.bci) (hstop : ys.headD L = y) :
    walk L (x :: ys) n (l ++ i :: (more ++ r)) =
      ⟨x, y, n + l.length, i :: more, [], none⟩ ::
        walk L ys (n + l.length + more.length) ((i :: (more ++ r)).drop more.length) := by
  have hpassed : (l ++ i :: (more ++ r)).takeWhile (fun i => (i.bci : Int) < x) = l :=
    takeWhile_append_of_head (by simpa using hl) (by simp [hi])
  have htaken : (more ++ r).takeWhile (fun i => (i.bci : Int) < y) = more :=
    takeWhile_append_of_head (by simpa using hmore) (by simpa using hr)
  rw [walk]
  simp only [hpassed, drop_left, hstop, htaken, Int.toNat_natCast]

/-- **The walk cuts the instructions at the block starts.** In front of the first block start are
instructions that the cursor still has to pass. -/
theorem walk_cut {x n : Nat} {xs : List Int} {l : List Instruction} {is : List Instruction}
    (hl : ∀ i ∈ l, i.bci < x) (hspan : Spans x (i :: is) L)
    (hlen : ∀ j ∈ i :: is, 0 < j.len) (hasc : ((x : Int) :: xs).Pairwise (· < ·))
    (hxs : ∀ y ∈ xs, Boundary (i :: is) y) :
    (walk L (x :: xs) n (l ++ i :: is)).map (fun b => (b.start : Int)) = (x : Int) :: xs ∧
      Cut L x (n + l.length) (walk L (x :: xs) n (l ++ i :: is)) (i :: is) := by
  induction xs generalizing x n l i is with
  | nil =>
    have hbound := (hspan.pairwise hlen).2.2
    have hlt : ∀ j ∈ is, j.bci < L := fun j hj => Nat.lt_of_lt_of_le
      (Nat.lt_add_of_pos_right (hlen j (mem_cons_of_mem i hj))) (hbound j (mem_cons_of_mem i hj)).2
    have hwalk := walk_cons (n := n) (r := []) hl hspan.1 hlt (by simp) headD_nil
    rw [append_nil] at hwalk
    rw [hwalk, walk]
    exact ⟨rfl, rfl, rfl, cons_ne_nil i is, hspan, [], (append_nil _).symm, rfl, rfl⟩
  | cons y ys ih =>
    obtain ⟨hx, hasc⟩ := pairwise_cons.1 hasc
    -- the next block start is an instruction behind the first one
    obtain ⟨j, hj, rfl⟩ := hxs y mem_cons_self
    have hxj := hx _ mem_cons_self
    obtain ⟨more, rest, rfl⟩ : ∃ more rest, is = more ++ j :: rest := by
      rcases mem_cons.1 hj with rfl | hj
      · exact absurd hspan.1 (by omega)
      · exact append_of_mem hj
    obtain ⟨hpair, -, -⟩ := hspan.pairwise hlen
    have hbelow : ∀ k ∈ i :: more, k.bci < j.bci := fun k hk =>
      Nat.lt_of_lt_of_le (Nat.lt_add_of_pos_right (hlen k (mem_append_left (j :: rest) hk)))
        ((pairwise_append.1 (show (i :: more ++ j :: rest).Pairwise _ from hpair)).2.2 k hk j mem_cons_self)
    obtain ⟨m, hblock, hrest⟩ := spans_append.1 (show Spans x (i :: more ++ j :: rest) L from hspan)
    obtain rfl := hrest.1
    have hys : ∀ z ∈ ys, Boundary (j :: rest) z := fun z hz => by
      obtain ⟨k, hk, rfl⟩ := hxs z (mem_cons_of_mem _ hz)
      have hjk := (pairwise_cons.1 hasc).1 _ hz
      rcases mem_append (s := i :: more).1 hk with hk | hk
      · exact absurd (hbelow k hk) (by omega)
      · exact ⟨k, hk, rfl⟩
    -- the cursor is left at the last instruction of the block
    obtain ⟨init, last, hinit⟩ := eq_nil_or_concat' (i :: more) |>.resolve_left (cons_ne_nil _ _)
    have hlength : more.length = init.length := by simpa using congrArg length hinit
    have hdrop : (i :: (more ++ j :: rest)).drop more.length = [last] ++ j :: rest := by
      rw [← cons_append, hinit, append_assoc, hlength, drop_left]
    obtain ⟨hmap, hcut⟩ := ih (n := n + l.length + more.length) (l := [last])
      (fun k hk => hbelow k (by rw [hinit]; exact mem_append_right _ hk)) hrest
      (fun k hk => hlen k (mem_append_right (i :: more) hk)) hasc hys
    rw [walk_cons hl hspan.1 (fun k hk => hbelow k (mem_cons_of_mem i hk))
      (fun k hk => by cases hk; exact Nat.le_refl _) (headD_cons ..), hdrop]
    rw [Nat.add_assoc _ more.length] at hcut
    rw [map_cons, hmap]
    exact ⟨rfl, rfl, rfl, cons_ne_nil i more, hblock, j :: rest, rfl, hcut⟩

theorem walk_leaders {code : List UInt8} (hcode : decode code = .ok insts) (hne : insts ≠ [])
    (hrows : ∀ e ∈ table, RowFits code.length insts e)
    (htargets : ∀ i ∈ insts, ∀ t ∈ i.targets, Boundary insts t) :
    (walk code.length (sortedLeaders code.length table insts) 0 insts).map
        (fun b => (b.start : Int)) = sortedLeaders code.length table insts ∧
      Cut code.length 0 0 (walk code.length (sortedLeaders code.length table insts) 0 insts)
        insts := by
  obtain ⟨hspan, hproper⟩ := decode_spans hcode
  have hbound : ∀ y ∈ sortedLeaders code.length table insts, Boundary insts y := fun y hy =>
    (mem_sortedLeaders.1 hy).inst hspan hne hrows htargets
  have hzero : 0 ∈ sortedLeaders code.length table insts := mem_sortedLeaders.2 .entry
  have hasc : (sortedLeaders code.length table insts).Pairwise (· < ·) := ascending_sortedLeaders
  revert hbound hzero hasc
  cases sortedLeaders code.length table insts with
  | nil => simp
  | cons y ys =>
    intro hbound hzero hasc
    obtain rfl : y = (0 : Nat) := by
      obtain ⟨i, -, rfl⟩ := hbound y mem_cons_self
      rcases mem_cons.1 hzero with hy | hy
      · exact hy.symm
      · have := (pairwise_cons.1 hasc).1 0 hy
        omega
    obtain ⟨i, is, rfl⟩ := exists_cons_of_ne_nil hne
    exact walk_cut (l := []) (by simp) hspan (fun i hi => (hproper i hi).1) hasc fun z hz =>
      hbound z (mem_cons_of_mem _ hz)

theorem spans_bounds {x y : Nat} {is : List Instruction} (h : Spans x is y)
    (hi : is.head? = some i) (hl : is.getLast? = some last) : i.bci = x ∧ last.next = y := by
  obtain ⟨init, rfl⟩ : ∃ init, is = init ++ [last] := ⟨_, (dropLast_append_getLast? _ hl).symm⟩
  obtain ⟨m, hm, hlast⟩ := spans_append.1 h
  refine ⟨?_, hlast.2⟩
  cases init with
  | nil =>
    cases hi
    exact hlast.1.trans hm.symm
  | cons j js =>
    cases hi
    exact hm.1

/-- Linking a block leaves it where it is. -/
theorem link_spec {b b' : CodeBlock} (h : link L b = .ok b') :
    b'.start = b.start ∧ b'.stop = b.stop ∧ b'.first = b.first ∧ b'.insts = b.insts ∧
      ∀ last, b.insts.getLast? = some last → last.next = b.stop → b'.Ends L last := by
  unfold link at h
  split at h
  · rename_i hnone
    cases h
    exact ⟨rfl, rfl, rfl, rfl, fun last hlast => absurd (hnone.symm.trans hlast) nofun⟩
  rename_i last hlast
  split at h
  · rename_i hends
    cases h
    refine ⟨rfl, rfl, rfl, rfl, fun l hl hstop => ?_⟩
    cases hlast.symm.trans hl
    exact ⟨hlast, hstop.symm, by simp, by simp [hends], nofun⟩
  split at h
  · cases h
  · rename_i hends hlt
    cases h
    refine ⟨rfl, rfl, rfl, rfl, fun l hl hstop => ?_⟩
    cases hlast.symm.trans hl
    exact ⟨hlast, hstop.symm, by simp, by simp [hends, hstop], fun n hn => by cases hn; omega⟩

namespace Cut

variable {a n : Nat} {bs bs' : List CodeBlock} {is : List Instruction} {b b' : CodeBlock}

theorem linked (h : Cut L a n bs is) (hlink : Forall₂ (fun b b' => link L b = .ok b') bs bs') :
    bs'.map (fun b => (b.start : Int)) = bs.map (fun b => (b.start : Int)) ∧ Cut L a n bs' is ∧
      ∀ b ∈ bs', ∃ last, b.Ends L last := by
  induction hlink generalizing a n is with
  | nil => exact ⟨rfl, h, by simp⟩
  | @cons b b' bs bs' hb _ ih =>
    obtain ⟨rfl, rfl, hne, hspan, rest, rfl, hrest⟩ := h
    obtain ⟨hmap, hcut, hends⟩ := ih hrest
    obtain ⟨hstart, hstop, hfirst, hinsts, hlink⟩ := link_spec hb
    have hlast := getLast?_eq_some_getLast hne
    have hnext := (spans_bounds hspan (head?_eq_some_head hne) hlast).2
    rw [← hstop, ← hinsts] at hcut
    rw [← hstart, ← hstop, ← hinsts] at hspan
    rw [map_cons, map_cons, hmap, hstart]
    exact ⟨rfl, ⟨hstart, hfirst, hinsts ▸ hne, hspan, rest, by rw [hinsts], hcut⟩,
      forall_mem_cons.2 ⟨⟨_, hlink _ hlast hnext⟩, hends⟩⟩

theorem spans (h : Cut L a n bs is) : Spans a is L := by
  induction bs generalizing a n is with
  | nil =>
    obtain ⟨rfl, rfl⟩ := h
    rfl
  | cons b bs ih =>
    obtain ⟨rfl, rfl, -, hspan, rest, rfl, hrest⟩ := h
    exact spans_append.2 ⟨b.stop, hspan, ih hrest⟩

theorem cover (h : Cut L a n bs is) : bs.flatMap (·.insts) = is := by
  induction bs generalizing a n is with
  | nil => exact h.1.symm
  | cons b bs ih =>
    obtain ⟨-, -, -, -, rest, rfl, hrest⟩ := h
    rw [flatMap_cons, ih hrest]

theorem place (h : Cut L a n bs is) (hb : b ∈ bs) : b.insts ≠ [] ∧ ∃ pre post,
    is = pre ++ b.insts ++ post ∧ b.first = n + pre.length ∧ Spans a pre b.start ∧
      Spans b.start b.insts b.stop ∧ Spans b.stop post L := by
  induction bs generalizing a n is with
  | nil => cases hb
  | cons c bs ih =>
    obtain ⟨rfl, rfl, hne, hspan, rest, rfl, hrest⟩ := h
    rcases mem_cons.1 hb with rfl | hb
    · exact ⟨hne, [], rest, rfl, rfl, rfl, hspan, hrest.spans⟩
    · obtain ⟨hne, pre, post, rfl, hfirst, hpre, hmid, hpost⟩ := ih hrest hb
      exact ⟨hne, c.insts ++ pre, post, by simp, by simp [hfirst, Nat.add_assoc],
        spans_append.2 ⟨c.stop, hspan, hpre⟩, hmid, hpost⟩

section

variable (h : Cut L a n bs is) (hlen : ∀ i ∈ is, 0 < i.len)

include h hlen

theorem bounds (hb : b ∈ bs) : a ≤ b.start ∧ b.start < b.stop ∧ b.stop ≤ L := by
  obtain ⟨hne, pre, post, rfl, -, hpre, hmid, hpost⟩ := h.place hb
  obtain ⟨i, hi⟩ := exists_mem_of_ne_nil _ hne
  have hpre := (hpre.pairwise fun i hi => hlen i (by simp [hi])).2.1
  have hmid := (hmid.pairwise fun i hi => hlen i (by simp [hi])).2.2 i hi
  have hpost := (hpost.pairwise fun i hi => hlen i (by simp [hi])).2.1
  have hpos : i.bci < i.next := Nat.lt_add_of_pos_right (hlen i (by simp [hi]))
  omega

theorem stop_le (hb : b ∈ bs) (hb' : b' ∈ bs) (hlt : b.start < b'.start) : b.stop ≤ b'.start := by
  induction bs generalizing a n is with
  | nil => cases hb
  | cons c bs ih =>
    have hc := h.bounds hlen mem_cons_self
    obtain ⟨rfl, rfl, -, -, rest, rfl, hrest⟩ := h
    replace hlen : ∀ i ∈ rest, 0 < i.len := fun i hi => hlen i (mem_append_right _ hi)
    rcases mem_cons.1 hb with rfl | hin <;> rcases mem_cons.1 hb' with rfl | hin'
    · omega
    · exact (hrest.bounds hlen hin').1
    · have := (hrest.bounds hlen hin).1
      omega
    · exact ih hrest hlen hin hin'

end

end Cut

/-- The blocks of a partition cut the instructions where blocks have to start. -/
structure Divides (p : Partition) (L : Nat) (table : HandlerTable) (insts : List Instruction) : Prop where
  cut : Cut L 0 0 p.blocks insts
  len : ∀ i ∈ insts, 0 < i.len
  starts : ∀ x : Int, (∃ b ∈ p.blocks, (b.start : Int) = x) ↔ Starts L table insts x
  ends : ∀ b ∈ p.blocks, ∃ last, b.Ends L last

theorem ofInstructions_divides {code : List UInt8} (hcode : decode code = .ok insts)
    (h : ofInstructions code.length table insts = .ok p) : p.Divides code.length table insts := by
  obtain ⟨hne, hrows, htargets, -, -, hblocks⟩ := (ofInstructions_eq_ok_iff hcode).1 h
  obtain ⟨hmap, hwalk⟩ := walk_leaders hcode hne hrows htargets
  obtain ⟨hstarts, hcut, hends⟩ := hwalk.linked (forall₂_of_mapM_ok hblocks)
  refine ⟨hcut, fun i hi => ((decode_spans hcode).2 i hi).1, fun x => ?_, hends⟩
  rw [← mem_sortedLeaders, ← hmap, ← hstarts, mem_map]

namespace Divides

variable (h : p.Divides L table insts) {b : CodeBlock} (hb : b ∈ p.blocks)

include h hb

/-- No block has to start inside a block. -/
theorem stop_le (hx : Starts L table insts x) (hlt : b.start < x) : b.stop ≤ x := by
  obtain ⟨b', hb', rfl⟩ := (h.starts x).2 hx
  exact Int.ofNat_le.2 (h.cut.stop_le h.len hb hb' (Int.ofNat_lt.1 hlt))

/-- No instruction but the last of a block transfers control. -/
theorem not_splits (hi : i ∈ b.insts) (hlt : i.next < b.stop) : ¬ Splits table i := by
  intro hsplits
  have hlen := h.len
  obtain ⟨-, pre, post, rfl, -, -, hmid, -⟩ := h.cut.place hb
  have hstop := (h.cut.bounds hlen hb).2.2
  have hlo := ((hmid.pairwise fun j hj => hlen j (by simp [hj])).2.2 i hi).1
  have hpos : i.bci < i.next := Nat.lt_add_of_pos_right (hlen i (by simp [hi]))
  have := h.stop_le hb (.behind (by simp [hi]) (by omega) hsplits) (by omega)
  omega

end Divides

theorem ofInstructions_tiled {code : List UInt8} (hcode : decode code = .ok insts)
    (h : ofInstructions code.length table insts = .ok p) : p.Tiled ∧ p.insts = insts := by
  have hdiv := ofInstructions_divides hcode h
  have hlen := hdiv.len
  obtain ⟨hspan, hproper⟩ := decode_spans hcode
  obtain ⟨-, -, -, hinsts, -⟩ := (ofInstructions_eq_ok_iff hcode).1 h
  refine ⟨⟨by rw [hinsts, hdiv.cut.cover], ⟨_, hinsts ▸ hspan⟩, hinsts ▸ hproper, fun b hb => ?_⟩, hinsts⟩
  obtain ⟨last, hlast⟩ := hdiv.ends b hb
  obtain ⟨-, pre, post, heq, -, -, hmid, -⟩ := hdiv.cut.place hb
  have hinit : b.insts = b.insts.dropLast ++ [last] := (dropLast_append_getLast? _ hlast.ends).symm
  refine ⟨hmid, b.insts.dropLast, last, hinit, fun j hj => ?_, hlast.fall⟩
  have hasc := (hmid.pairwise fun i hi => hlen i (by simp [heq, hi])).1
  rw [hinit, pairwise_append] at hasc
  have hbelow := hasc.2.2 j hj last mem_cons_self
  have hpos : last.bci < last.next :=
    Nat.lt_add_of_pos_right (hlen last (by simp [heq, mem_of_getLast? hlast.ends]))
  have hno := hdiv.not_splits hb (mem_of_mem_dropLast hj) (by rw [hlast.stop]; omega)
  unfold Splits at hno
  simp only [not_or, Bool.not_eq_true] at hno
  exact ⟨hno.1, hno.2.1, hno.2.2.1⟩

/-! ## Refusals -/

/-- Whatever a partition is refused for, it is a flaw of the code or of its exception table. -/
theorem isFlaw_ofInstructions {e : Bailout} (h : ofInstructions L table insts = .error e) :
    e.reason.IsFlaw := by
  unfold ofInstructions at h
  split at h
  · cases h
    trivial
  dsimp only at h
  split at h
  · rename_i hfault
    cases h
    obtain ⟨row, -, hrow⟩ := exists_of_findSome?_eq_some hfault
    simp only [HandlerTable.entryFault?] at hrow
    split_ifs at hrow <;> cases hrow <;> trivial
  split at h
  · rename_i htarget
    cases h
    obtain ⟨i, -, hi⟩ := exists_of_findSome?_eq_some htarget
    obtain ⟨t, -, rfl⟩ := Option.map_eq_some_iff.1 hi
    trivial
  split at h
  · rename_i hblocks
    cases h
    obtain ⟨b, -, hb⟩ := exists_of_mapM_error hblocks
    unfold link at hb
    split at hb
    · cases hb
    split_ifs at hb
    cases hb
    trivial
  · cases h

/-! ## Methods -/

theorem decode_of_instructions (h : m.instructions = .ok insts) : decode m.code = .ok insts := by
  unfold Method.instructions at h
  split at h
  · cases h
  · rename_i hd
    cases h
    exact hd

/-- **The blocks of a method tile its decoded code.** -/
theorem ofMethod_tiled (h : ofMethod m = .ok p) : p.Tiled ∧ m.instructions = .ok p.insts := by
  unfold ofMethod at h
  split at h
  · cases h
  · rename_i insts hinsts
    obtain ⟨ht, rfl⟩ := ofInstructions_tiled (decode_of_instructions hinsts) h
    exact ⟨ht, hinsts⟩

/-- **The rows of an exception table cover code only.** -/
theorem ofMethod_protected (h : ofMethod m = .ok p) {c : Int}
    (hc : isProtected m.exceptions c = true) : 0 ≤ c ∧ c < m.code.length := by
  obtain ⟨e, he, hcovers⟩ := any_eq_true.1 hc
  unfold ofMethod at h
  split at h
  · cases h
  rename_i insts hinsts
  have hcode := decode_of_instructions hinsts
  have hbound {x : Int} (hx : Boundary insts x) : 0 ≤ x ∧ x < m.code.length := by
    obtain ⟨i, hi, rfl⟩ := hx
    have := bci_lt hcode hi
    omega
  have hrow := ((ofInstructions_eq_ok_iff hcode).1 h).2.1 e he
  obtain ⟨hlo, hhi⟩ : e.start ≤ c ∧ c < e.stop := by simpa [ExceptionEntry.covers] using hcovers
  have hstart := hbound hrow.start
  rcases hrow.stop with hstop | hstop
  · omega
  · have hstop := hbound hstop
    omega

namespace Tiled

variable {p : Partition} {b b' : CodeBlock} {i : Instruction} {x : Nat}

section

variable (h : p.Tiled)

include h

theorem mem_insts (hb : b ∈ p.blocks) (hi : i ∈ b.insts) : i ∈ p.insts := by
  rw [← h.cover]
  exact mem_flatMap.2 ⟨b, hb, hi⟩

theorem ascending : p.insts.Pairwise fun i j => i.next ≤ j.bci := by
  obtain ⟨z, hz⟩ := h.spans
  exact (hz.pairwise fun i hi => (h.proper i hi).1).1

theorem lt_next (hi : i ∈ p.insts) : i.bci < i.next :=
  Nat.lt_add_of_pos_right (h.proper i hi).1

theorem bounds (hb : b ∈ p.blocks) :
    ∀ i ∈ b.insts, b.start ≤ i.bci ∧ i.next ≤ b.stop :=
  ((h.straight b hb).spans.pairwise fun i hi => (h.proper i (h.mem_insts hb hi)).1).2.2

theorem exists_first (hb : b ∈ p.blocks) : ∃ i ∈ b.insts, i.bci = b.start := by
  have hs := (h.straight b hb).spans
  obtain ⟨init, last, heq, -⟩ := (h.straight b hb).split
  obtain ⟨i, is, hi⟩ : ∃ i is, b.insts = i :: is := by
    cases init with
    | nil => exact ⟨last, [], heq⟩
    | cons i is => exact ⟨i, is ++ [last], heq⟩
  rw [hi] at hs
  exact ⟨i, by simp [hi], hs.1⟩

theorem exists_last (hb : b ∈ p.blocks) : ∃ i ∈ b.insts, i.next = b.stop := by
  obtain ⟨init, last, heq, -⟩ := (h.straight b hb).split
  have hs := (h.straight b hb).spans
  rw [heq] at hs
  obtain ⟨m, -, hm⟩ := spans_append.1 hs
  exact ⟨last, by simp [heq], hm.2⟩

/-- Blocks come in order and do not overlap. -/
theorem stop_le_start : p.blocks.Pairwise fun b b' => b.stop ≤ b'.start := by
  have hasc := h.ascending
  rw [← h.cover, flatMap_def, pairwise_flatten] at hasc
  refine (pairwise_map.1 hasc.2).imp_of_mem fun {b b'} hb hb' hle => ?_
  obtain ⟨i, hi, hstop⟩ := h.exists_last hb
  obtain ⟨i', hi', hstart⟩ := h.exists_first hb'
  rw [← hstop, ← hstart]
  exact hle i hi i' hi'

theorem start_lt_stop (hb : b ∈ p.blocks) : b.start < b.stop := by
  obtain ⟨i, hi, hstart⟩ := h.exists_first hb
  have := h.lt_next (h.mem_insts hb hi)
  have := (h.bounds hb i hi).2
  omega

/-- **A bci lies in at most one block.** -/
theorem eq_of_mem_range (hb : b ∈ p.blocks) (hb' : b' ∈ p.blocks)
    (hx : b.start ≤ x ∧ x < b.stop) (hx' : b'.start ≤ x ∧ x < b'.stop) : b = b' := by
  obtain ⟨n, hn, rfl⟩ := mem_iff_getElem.1 hb
  obtain ⟨n', hn', rfl⟩ := mem_iff_getElem.1 hb'
  have hord := pairwise_iff_getElem.1 h.stop_le_start
  rcases Nat.lt_trichotomy n n' with hlt | rfl | hlt
  · have := hord n n' hn hn' hlt
    omega
  · rfl
  · have := hord n' n hn' hn hlt
    omega

theorem eq_of_start (hb : b ∈ p.blocks) (hb' : b' ∈ p.blocks)
    (he : b.start = b'.start) : b = b' :=
  h.eq_of_mem_range hb hb' (x := b.start) ⟨Nat.le_refl _, h.start_lt_stop hb⟩
    ⟨Nat.le_of_eq he.symm, he ▸ h.start_lt_stop hb'⟩

theorem blockAt?_start (hb : b ∈ p.blocks) : p.blockAt? b.start = some b := by
  unfold blockAt?
  cases hf : p.blocks.find? (fun c => (c.start : Int) = b.start) with
  | none =>
    rw [find?_eq_none] at hf
    simpa using hf b hb
  | some c =>
    have hc := mem_of_find?_eq_some hf
    have hstart := find?_some hf
    simp only [decide_eq_true_eq, Int.natCast_inj] at hstart
    rw [h.eq_of_start hc hb hstart]

end

end Tiled

theorem blockAt?_spec {bci : Int} {b : CodeBlock} (h : p.blockAt? bci = some b) : b ∈ p.blocks ∧ (b.start : Int) = bci :=
  ⟨mem_of_find?_eq_some h, by simpa using find?_some h⟩

end Partition
end Bytelift
