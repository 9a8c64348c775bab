import Bytelift.Proofs.Flow.Starts
import Bytelift.Proofs.Lift.CleanupOrder

/-!
# Protection inside a block

Blocks start at the borders of every row of the exception table, so a row covers a whole block or nothing of it. What depends on
the rows that cover a bci is then the same for every bci of a block: whether it is protected, the rows in their order, and the cleanup
regions that control leaves on its way from there.

Result: `Partition.ofInstructions_uniform`.
-/

namespace Bytelift.Partition

open Lift

variable {table : HandlerTable} {insts : List Instruction} {p : Partition} {b : CodeBlock} {x : Int}

/-- A row covers all of a block or nothing of it. -/
theorem covers_eq {code : List UInt8} (hcode : Code.decode code = .ok insts) (h : ofInstructions code.length table insts = .ok p)
    (hb : b ∈ p.blocks) (hlo : b.start ≤ x) (hhi : x < b.stop) {e : ExceptionEntry} (he : e ∈ table) : e.covers x = e.covers b.start := by
  have hdiv := ofInstructions_divides hcode h
  have hstop := (hdiv.cut.bounds hdiv.len hb).2.2
  have hinside {y : Int} := hdiv.stop_le hb (x := y)
  have hfrom := hinside (.rowStart he)
  have hto : (b.start : Int) < e.stop → b.stop ≤ e.stop := by
    intro hlt
    by_cases hend : e.stop < code.length
    · exact hinside (.rowStop he hend) hlt
    · omega
  rw [Bool.eq_iff_iff]
  simp only [ExceptionEntry.covers, Bool.and_eq_true, decide_eq_true_eq]
  omega

/-- **All of a block is protected alike.** Every bci of a block is covered by the rows that cover its start, and a transfer of control
from there leaves the regions that it leaves from the start, whatever its destination. The regions are those of any state after they are
set up, as the lifting of the code only adds exits to them. -/
theorem ofInstructions_uniform {code : List UInt8} (hcode : Code.decode code = .ok insts)
    (h : ofInstructions code.length table insts = .ok p) (hb : b ∈ p.blocks) (hlo : b.start ≤ x) (hhi : x < b.stop) :
    table.coveringIndices x = table.coveringIndices b.start ∧ table.isProtected x = table.isProtected b.start ∧
      ∀ (cx : Context) (s₀ : State), cx.table = table → s₀.regions = [] → ∃ s₁, cx.buildRegions.run s₀ = (.ok (), s₁) ∧
        ∀ s : State, List.Forall₂ Region.Grows s₁.regions s.regions →
          ∀ exit, exitedRegions s.regions x exit = exitedRegions s.regions b.start exit := by
  have hcovers {e : ExceptionEntry} (he : e ∈ table) := covers_eq hcode h hb hlo hhi he
  refine ⟨?_, ?_, fun cx s₀ hcx hnew => ?_⟩
  · unfold HandlerTable.coveringIndices
    refine congrArg _ (List.filter_congr fun row hrow => hcovers ?_)
    exact List.mem_of_getElem? (List.mk_mem_zipIdx_iff_getElem?.1 hrow)
  · rw [Bool.eq_iff_iff]
    simp only [HandlerTable.isProtected, List.any_eq_true]
    exact exists_congr fun e => and_congr_right fun he => by rw [hcovers he]
  · obtain ⟨s₁, hrun, halike⟩ := run_buildRegions cx hnew
    refine ⟨s₁, hrun, fun s hgrows exit => List.filter_congr fun r hr => ?_⟩
    obtain ⟨r₀, hr₀, hsame⟩ := exists_of_mem_right (alike_mono halike hgrows) hr
    subst hcx
    have hrows : HandlerTable.covering cx.table x = cx.table.covering b.start := List.filter_congr fun e he => hcovers he
    have hregion : r.covers x = r.covers b.start := by
      rw [Region.covers, Region.covers, hsame.rows, ← Region.covers, ← Region.covers, covers_cleanups hr₀, covers_cleanups hr₀, hrows]
    unfold Region.isLeft
    rw [hregion]

/-- The call in the middle of `guardedCall` and the bytes of its index are covered by the same rows. -/
theorem guardedCall_uniform : ∃ insts p, Code.decode guardedCall = .ok insts ∧
    ofInstructions guardedCall.length [⟨4, 8, 8, [], true⟩] insts = .ok p ∧
    p.blocks.map (fun b => (b.start, b.stop)) = [(0, 4), (4, 7), (7, 8), (8, 9)] ∧
    HandlerTable.coveringIndices [⟨4, 8, 8, [], true⟩] 6 = HandlerTable.coveringIndices [⟨4, 8, 8, [], true⟩] 4 := by
  obtain ⟨insts, p, hcode, hp, hblocks⟩ := guardedCall_blocks true
  obtain ⟨b, hb, hrange⟩ : ∃ b ∈ p.blocks, (b.start, b.stop) = (4, 7) := List.mem_map.1 (hblocks ▸ .tail _ (.head _))
  obtain ⟨hstart, hstop⟩ := Prod.mk.inj hrange
  refine ⟨insts, p, hcode, hp, hblocks, ?_⟩
  have huniform := (ofInstructions_uniform (x := 6) hcode hp hb (by omega) (by omega)).1
  rwa [hstart] at huniform

end Bytelift.Partition
