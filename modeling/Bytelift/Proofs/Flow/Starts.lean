import Bytelift.Proofs.Flow.Blocks

/-!
# Where blocks start

The partition of decoded code of length `L` has a block at each bci where one has to start, which is said here by rules (`Starts`)
and not by the list that the partition is computed from. The blocks follow each other without a gap, in the code and in its
instructions, and control moves from the end of a block to the starts of others only.

Result: `Partition.ofInstructions_covers`.
-/

namespace Bytelift

open List

namespace Partition

variable {L : Nat} {table : HandlerTable} {insts : List Instruction} {p : Partition}

variable {i : Instruction} {x : Int} {b : CodeBlock} {k : Nat}

namespace Cut

variable {a n : Nat} {bs : List CodeBlock} {is : List Instruction} {b : CodeBlock}

theorem chain (h : Cut L a n bs is) : bs.IsChain fun b b' => b'.start = b.stop ∧ b'.first = b.last + 1 := by
  induction bs generalizing a n is with
  | nil => exact .nil
  | cons b bs ih =>
    obtain ⟨rfl, rfl, hfull, hspan, rest, rfl, hrest⟩ := h
    cases bs with
    | nil => exact .singleton b
    | cons b' bs =>
      refine .cons_cons ⟨hrest.1, ?_⟩ (ih hrest)
      have := hrest.2.1
      have := length_pos_iff.2 hfull
      unfold CodeBlock.last
      omega

theorem finish (h : Cut L a n bs is) (hne : bs ≠ []) :
    ∃ b, bs.getLast? = some b ∧ b.stop = L ∧ b.last + 1 = n + is.length := by
  induction bs generalizing a n is with
  | nil => exact absurd rfl hne
  | cons b bs ih =>
    obtain ⟨rfl, rfl, hfull, hspan, rest, rfl, hrest⟩ := h
    cases bs with
    | nil =>
      obtain ⟨rfl, hstop⟩ := hrest
      have := length_pos_iff.2 hfull
      refine ⟨b, rfl, hstop, ?_⟩
      unfold CodeBlock.last
      rw [append_nil]
      omega
    | cons b' bs =>
      obtain ⟨c, hc, hstop, hlast⟩ := ih hrest (cons_ne_nil _ _)
      exact ⟨c, by rwa [getLast?_cons_cons], hstop, by rw [hlast, length_append, Nat.add_assoc]⟩

theorem exists_next (h : Cut L a n bs is) (hb : b ∈ bs) (hlt : b.stop < L) : ∃ b' ∈ bs, b'.start = b.stop := by
  induction bs generalizing a n is with
  | nil => cases hb
  | cons c bs ih =>
    obtain ⟨rfl, rfl, -, hspan, rest, rfl, hrest⟩ := h
    rcases mem_cons.1 hb with rfl | hb
    · cases bs with
      | nil => exact absurd hrest.2 (by omega)
      | cons b' bs => exact ⟨b', by simp, hrest.1⟩
    · obtain ⟨b', hb', hstart⟩ := ih hrest hb
      exact ⟨b', mem_cons_of_mem _ hb', hstart⟩

theorem exists_block (h : Cut L a n bs is) {x : Nat} (ha : a ≤ x) (hL : x < L) : ∃ b ∈ bs, b.start ≤ x ∧ x < b.stop := by
  induction bs generalizing a n is with
  | nil => exact absurd h.2 (by omega)
  | cons c bs ih =>
    obtain ⟨rfl, rfl, -, hspan, rest, rfl, hrest⟩ := h
    rcases Nat.lt_or_ge x c.stop with hx | hx
    · exact ⟨c, mem_cons_self, ha, hx⟩
    · obtain ⟨b, hb, hin⟩ := ih hrest hx
      exact ⟨b, mem_cons_of_mem _ hb, hin⟩

end Cut

/-- A partition covers code of the given length and its instructions, with a block at each bci where one has to start and nowhere else. -/
structure Covers (p : Partition) (L : Nat) (table : HandlerTable) (insts : List Instruction) : Prop where
  /-- The first block starts with the code. -/
  begins : ∃ b, p.blocks.head? = some b ∧ b.start = 0 ∧ b.first = 0
  /-- Each block starts where the one before it ends. -/
  follows : p.blocks.IsChain fun b b' => b'.start = b.stop ∧ b'.first = b.last + 1
  /-- The last block ends with the code. -/
  finishes : ∃ b, p.blocks.getLast? = some b ∧ b.stop = L ∧ b.last + 1 = insts.length
  /-- A block holds the instructions that start in it. -/
  holds : ∀ b ∈ p.blocks, b.start < b.stop ∧ b.first ≤ b.last ∧ b.insts = (insts.take (b.last + 1)).drop b.first ∧
    ∀ k i, insts[k]? = some i → (b.first ≤ k ∧ k ≤ b.last ↔ b.start ≤ i.bci ∧ i.bci < b.stop)
  starts : ∀ x : Int, (∃ b ∈ p.blocks, (b.start : Int) = x) ↔ Starts L table insts x
  /-- Control leaves a block behind its last instruction only. -/
  straight : ∀ b ∈ p.blocks, ∀ k i, insts[k]? = some i → b.first ≤ k → k < b.last → ¬ Splits table i
  /-- Control goes to the targets of the last instruction, and to the next block unless that instruction ends the block. -/
  leaves : ∀ b ∈ p.blocks, ∃ i, insts[b.last]? = some i ∧ b.succs = i.targets ++ (b.fall.map Int.ofNat).toList ∧
    b.fall = if i.op.endsBlock then none else some b.stop
  /-- Control enters blocks at their starts only. -/
  enters : ∀ b ∈ p.blocks, (∀ s ∈ b.succs, ∃ b' ∈ p.blocks, (b'.start : Int) = s) ∧
    ∀ n, b.fall = some n → ∃ b' ∈ p.blocks, b'.start = n
  /-- A bci of the code is found in the one block that holds it. -/
  found : ∀ x : Int, 0 ≤ x → x < L → ∃ b ∈ p.blocks, p.containing? x = some b ∧ b.start ≤ x ∧ x < b.stop ∧
    ∀ b' ∈ p.blocks, b'.start ≤ x → x < b'.stop → b' = b
  outside : ∀ x : Int, x < 0 ∨ L ≤ x → p.containing? x = none
  instruction : ∀ x : Int, p.isInstructionStart x = true ↔ ∃ i ∈ insts, (i.bci : Int) = x

/-- An instruction is in a block by its position exactly if it is by its bci. -/
theorem position_iff {pre mid post : List Instruction} {x y : Nat} (hpre : Spans 0 pre x) (hmid : Spans x mid y) (hpost : Spans y post L)
    (hlen : ∀ i ∈ pre ++ mid ++ post, 0 < i.len) (hk : (pre ++ mid ++ post)[k]? = some i) :
    pre.length ≤ k ∧ k < pre.length + mid.length ↔ x ≤ i.bci ∧ i.bci < y := by
  have hnext : i.bci < i.next := Nat.lt_add_of_pos_right (hlen i (mem_of_getElem? hk))
  have hpre := hpre.pairwise fun i hi => hlen i (by simp [hi])
  have hmid := hmid.pairwise fun i hi => hlen i (by simp [hi])
  have hpost := hpost.pairwise fun i hi => hlen i (by simp [hi])
  rw [append_assoc] at hk
  rcases Nat.lt_or_ge k pre.length with hlt | hge
  · rw [getElem?_append_left hlt] at hk
    have := hpre.2.2 i (mem_of_getElem? hk)
    omega
  rw [getElem?_append_right hge] at hk
  rcases Nat.lt_or_ge (k - pre.length) mid.length with hlt | hge'
  · rw [getElem?_append_left hlt] at hk
    have := hmid.2.2 i (mem_of_getElem? hk)
    omega
  · rw [getElem?_append_right hge'] at hk
    have := hpost.2.2 i (mem_of_getElem? hk)
    omega

/-- A block holds the instructions that start in it. -/
theorem Cut.holds {bs : List CodeBlock} (hcut : Cut L 0 0 bs insts) (hlen : ∀ i ∈ insts, 0 < i.len) (hb : b ∈ bs) :
    b.first ≤ b.last ∧ b.insts = (insts.take (b.last + 1)).drop b.first ∧
      ∀ k i, insts[k]? = some i → (b.first ≤ k ∧ k ≤ b.last ↔ b.start ≤ i.bci ∧ i.bci < b.stop) := by
  obtain ⟨hne, pre, post, heq, hfirst, hpre, hmid, hpost⟩ := hcut.place hb
  have hpos := length_pos_iff.2 hne
  have hlast : b.last + 1 = pre.length + b.insts.length := by
    unfold CodeBlock.last
    omega
  refine ⟨by omega, ?_, fun k i hk => ?_⟩
  · rw [hlast, heq, hfirst, Nat.zero_add, ← length_append, take_left, drop_left]
  · rw [heq] at hk
    rw [← position_iff hpre hmid hpost (heq ▸ hlen) hk]
    omega

/-- The last instruction of a block has the last position. -/
theorem Cut.getElem?_last {bs : List CodeBlock} {last : Instruction} (hcut : Cut L 0 0 bs insts) (hb : b ∈ bs)
    (hends : b.Ends L last) : insts[b.last]? = some last := by
  obtain ⟨hne, pre, post, heq, hfirst, -⟩ := hcut.place hb
  have hpos := length_pos_iff.2 hne
  have hlast := hends.ends
  rw [getLast?_eq_getElem?] at hlast
  rw [heq, append_assoc, getElem?_append_right (by unfold CodeBlock.last; omega),
    show b.last - pre.length = b.insts.length - 1 by unfold CodeBlock.last; omega, getElem?_append_left (by omega), hlast]

namespace Divides

variable (h : p.Divides L table insts)

section

variable {last : Instruction} (hb : b ∈ p.blocks) (hends : b.Ends L last)

include h hb hends

theorem not_splits_getElem? (hk : insts[k]? = some i) (hfirst : b.first ≤ k) (hlast : k < b.last) : ¬ Splits table i := by
  obtain ⟨-, hinsts, -⟩ := h.cut.holds h.len hb
  have hi : i ∈ b.insts := by
    rw [hinsts, mem_iff_getElem?]
    refine ⟨k - b.first, ?_⟩
    rw [getElem?_drop, getElem?_take, if_pos (by omega), show b.first + (k - b.first) = k by omega, hk]
  have hasc := (h.cut.spans.pairwise h.len).1
  obtain ⟨hin, hi'⟩ := List.getElem?_eq_some_iff.1 hk
  obtain ⟨hin', hl⟩ := List.getElem?_eq_some_iff.1 (h.cut.getElem?_last hb hends)
  have hle := pairwise_iff_getElem.1 hasc k b.last hin hin' hlast
  rw [hi', hl] at hle
  have hpos : last.bci < last.next := Nat.lt_add_of_pos_right (h.len last (hl ▸ getElem_mem hin'))
  exact h.not_splits hb hi (by rw [hends.stop]; omega)

theorem succs_start :
    (∀ s ∈ b.succs, ∃ b' ∈ p.blocks, (b'.start : Int) = s) ∧ ∀ n, b.fall = some n → ∃ b' ∈ p.blocks, b'.start = n := by
  have hfall : ∀ n, b.fall = some n → ∃ b' ∈ p.blocks, b'.start = n := by
    intro n hn
    have hlt := hends.inside n hn
    obtain rfl : b.stop = n := by
      rw [hends.fall] at hn
      split at hn <;> cases hn
      exact hends.stop
    exact h.cut.exists_next hb hlt
  refine ⟨fun s hs => ?_, hfall⟩
  rw [hends.succs, mem_append] at hs
  rcases hs with hs | hs
  · exact (h.starts s).2 (.target (mem_of_getElem? (h.cut.getElem?_last hb hends)) hs)
  cases hn : b.fall with
  | none => simp [hn] at hs
  | some n =>
    obtain rfl : s = n := by simpa [hn] using hs
    obtain ⟨b', hb', rfl⟩ := hfall n hn
    exact ⟨b', hb', rfl⟩

end

end Divides

/-! ## Looking for a bci -/

/-- The search ends behind a number that fails the test, unless it stayed at the start, and at a
number that passes, unless it stayed at the end. -/
theorem search_spec (test : Nat → Bool) {i j : Nat} (hij : i ≤ j) :
    i ≤ search test i j ∧ search test i j ≤ j ∧
      (search test i j < j → test (search test i j) = true) ∧
      (i < search test i j → test (search test i j - 1) = false) := by
  fun_induction search test i j with
  | case1 i j hlt mid hmid ih =>
    obtain ⟨hlo, hhi, hpass, hfail⟩ := ih (by omega)
    refine ⟨hlo, by omega, fun hk => ?_, hfail⟩
    rcases Nat.lt_or_eq_of_le hhi with hk | hk
    · exact hpass hk
    · rw [hk]
      exact hmid
  | case2 i j hlt mid hmid ih =>
    obtain ⟨hlo, hhi, hpass, hfail⟩ := ih (by omega)
    refine ⟨by omega, hhi, hpass, fun hk => ?_⟩
    rcases Nat.lt_or_eq_of_le hlo with hk | hk
    · exact hfail hk
    · rw [← hk]
      simpa using hmid
  | case3 i j hnot =>
    exact ⟨Nat.le_refl i, hij, fun hk => absurd hk hnot, fun hk => absurd hk (Nat.lt_irrefl i)⟩

/-- The search finds the block that holds a bci. -/
theorem containing?_getElem? (htiled : p.Tiled) (hk : p.blocks[k]? = some b) (hlo : b.start ≤ x)
    (hhi : x < b.stop) : p.containing? x = some b := by
  obtain ⟨hlt, rfl⟩ := List.getElem?_eq_some_iff.1 hk
  have hord := pairwise_iff_getElem.1 htiled.stop_le_start
  unfold containing?
  obtain ⟨-, hle, hpass, hfail⟩ := search_spec
    (fun i => p.blocks[i]?.any fun b => decide (x < b.stop)) (Nat.zero_le p.blocks.length)
  generalize search _ 0 p.blocks.length = n at *
  obtain rfl : n = k := by
    rcases Nat.lt_trichotomy n k with hnk | hnk | hnk
    · have hpass := hpass (by omega)
      rw [getElem?_eq_getElem (by omega), Option.any_some, decide_eq_true_iff] at hpass
      have := hord n k (by omega) hlt hnk
      omega
    · exact hnk
    · have hfail := hfail (by omega)
      rw [getElem?_eq_getElem (by omega), Option.any_some, decide_eq_false_iff_not] at hfail
      rcases Nat.eq_or_lt_of_le (show k ≤ n - 1 by omega) with rfl | hkn
      · exact absurd hhi hfail
      · have := hord k (n - 1) hlt (by omega) hkn
        have := htiled.start_lt_stop (getElem_mem (show n - 1 < p.blocks.length by omega))
        omega
  simp [hk, hlo]

/-- A bci of the code is found in the one block that holds it. -/
theorem Divides.containing?_eq (h : p.Divides L table insts) (htiled : p.Tiled) (hx : 0 ≤ x) (hL : x < L) :
    ∃ b ∈ p.blocks, p.containing? x = some b ∧ b.start ≤ x ∧ x < b.stop ∧
      ∀ b' ∈ p.blocks, b'.start ≤ x → x < b'.stop → b' = b := by
  obtain ⟨n, rfl⟩ := Int.eq_ofNat_of_zero_le hx
  obtain ⟨b, hb, hin⟩ := h.cut.exists_block (Nat.zero_le n) (by omega)
  obtain ⟨k, hk⟩ := getElem?_of_mem hb
  refine ⟨b, hb, containing?_getElem? htiled hk (by omega) (by omega), by omega, by omega, ?_⟩
  exact fun b' hb' hlo hhi => htiled.eq_of_mem_range hb' hb (x := n) (by omega) hin

theorem Divides.containing?_eq_none (h : p.Divides L table insts) (hx : x < 0 ∨ L ≤ x) : p.containing? x = none := by
  unfold containing?
  obtain ⟨-, hle, hpass, -⟩ := search_spec
    (fun i => p.blocks[i]?.any fun b => decide (x < b.stop)) (Nat.zero_le p.blocks.length)
  generalize search _ 0 p.blocks.length = n at *
  rw [Option.filter_eq_none_iff]
  intro b hb
  have hpass := hpass (List.getElem?_eq_some_iff.1 hb).1
  have hstop := (h.cut.bounds h.len (mem_of_getElem? hb)).2.2
  rw [hb, Option.any_some, decide_eq_true_iff] at hpass
  rw [decide_eq_true_iff]
  omega

/-- **Blocks tile the code, and control moves between their starts only.** -/
theorem ofInstructions_covers {code : List UInt8} (hcode : Code.decode code = .ok insts)
    (h : ofInstructions code.length table insts = .ok p) :
    p.insts = insts ∧ p.Covers code.length table insts := by
  obtain ⟨hne, -, -, hinsts, hmarks, -⟩ := (ofInstructions_eq_ok_iff hcode).1 h
  have hdiv := ofInstructions_divides hcode h
  have hcut := hdiv.cut
  have htiled := (ofInstructions_tiled hcode h).1
  have hbne : p.blocks ≠ [] := by
    intro hnil
    rw [hnil] at hcut
    exact hne hcut.1
  refine ⟨hinsts, ?_, hcut.chain, by simpa using hcut.finish hbne,
    fun b hb => ⟨htiled.start_lt_stop hb, hcut.holds hdiv.len hb⟩, hdiv.starts, ?_, ?_, ?_, ?_, ?_, ?_⟩
  · obtain ⟨b, bs, hbs⟩ := List.exists_cons_of_ne_nil hbne
    rw [hbs] at hcut ⊢
    exact ⟨b, rfl, hcut.1, hcut.2.1⟩
  · intro b hb k i hk hfirst hlast
    obtain ⟨last, hends⟩ := hdiv.ends b hb
    exact hdiv.not_splits_getElem? hb hends hk hfirst hlast
  · intro b hb
    obtain ⟨last, hends⟩ := hdiv.ends b hb
    exact ⟨last, hcut.getElem?_last hb hends, hends.succs, by rw [hends.stop, hends.fall]⟩
  · intro b hb
    obtain ⟨last, hends⟩ := hdiv.ends b hb
    exact hdiv.succs_start hb hends
  · exact fun x hx hL => hdiv.containing?_eq htiled hx hL
  · exact fun x hx => hdiv.containing?_eq_none hx
  · intro x
    rw [isInstructionStart, hmarks]
    exact Bitmap.isSet_ofInstructions (fun i hi => bci_lt hcode hi) x

/-- A branch over a protected call. -/
def guardedCall : List UInt8 := [0x1a, 0x99, 0, 7, 0xb8, 0, 1, 0, 0xb1]

theorem guardedCall_blocks (cleanup : Bool) : ∃ insts p, Code.decode guardedCall = .ok insts ∧
    ofInstructions guardedCall.length [⟨4, 8, 8, [], cleanup⟩] insts = .ok p ∧
    p.blocks.map (fun b => (b.start, b.stop)) = [(0, 4), (4, 7), (7, 8), (8, 9)] := by
  obtain ⟨insts, hcode⟩ : ∃ insts, Code.decode guardedCall = .ok insts := ⟨_, rfl⟩
  have hblocks : (ofInstructions guardedCall.length [⟨4, 8, 8, [], cleanup⟩] insts >>= fun p =>
      .ok (p.blocks.map fun b => (b.start, b.stop))) = .ok [(0, 4), (4, 7), (7, 8), (8, 9)] := by
    cases hcode
    cases cleanup <;> decide +kernel
  obtain ⟨p, hp, hranges⟩ := exists_of_bind_ok hblocks
  exact ⟨insts, p, hcode, hp, Except.ok.inj hranges⟩

theorem guardedCall_covers : ∃ insts p, Code.decode guardedCall = .ok insts ∧
    ofInstructions guardedCall.length [⟨4, 8, 8, [], false⟩] insts = .ok p ∧
    p.blocks.map (·.start) = [0, 4, 7, 8] ∧
    p.Covers guardedCall.length [⟨4, 8, 8, [], false⟩] insts := by
  obtain ⟨insts, p, hcode, hp, hblocks⟩ := guardedCall_blocks false
  refine ⟨insts, p, hcode, hp, ?_, (ofInstructions_covers hcode hp).2⟩
  have hstarts := congrArg (map Prod.fst) hblocks
  rwa [map_map] at hstarts

end Partition
end Bytelift
