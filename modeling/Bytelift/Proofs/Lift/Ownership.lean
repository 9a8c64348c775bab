import Bytelift.Proofs.Lift.Exits

/-!
# Owners of code

A block of bytecode belongs to the cleanup region whose code it was first reached from. Control that comes to the
block again has to come from code of the same owner, which is checked where the block is scheduled. A jump that leaves
regions goes through a block that is made for the last of these regions, and such a block is made once: the jumps
that share it are not checked against the owner of their destination, only the first of them is.

Results:
* `liftMethod_owners`: **the jumps to a block come from code of its owner just if those that leave the same last region
  come from code of one owner.**
-/

namespace Bytelift

namespace Lift

open Ir List Context Instruction

variable {cx : Context} {s : State} {T source : Int} {V : Option Int → Prop} {b : BlockId} {o : Option Int}

instance (V : Option Int → Prop) [DecidablePred V] (T : Int) (s : State) : Decidable (Owned V T s) :=
  decidable_of_iff ((s.entries.lookup T).any fun e => V e.owner.head?) <| by
  simp [Owned, Option.any_eq_true]

instance (cx : Context) (s : State) (o : Option Int) (source T : Int) : Decidable (JumpsFrom cx s o source T) :=
  decidable_of_iff (∃ x ∈ s.entries, ∃ B ∈ cx.partition.blocks, ∃ i ∈ B.insts,
    LastOf cx x.1 i ∧ .jump T ∈ i.exits ∧ (i.bci : Int) = source ∧ x.2.owner.head? = o) <| by
  constructor
  · rintro ⟨⟨bci, e⟩, he, -, -, i, -, hi⟩
    exact ⟨bci, e, i, he, hi⟩
  · rintro ⟨bci, e, i, he, hlast, hi⟩
    obtain ⟨B, hB, -, -, hB'⟩ := id hlast
    exact ⟨(bci, e), he, B, hB, i, List.mem_of_getLast? hB', hlast, hi⟩

theorem Owned.unique {V' : Option Int → Prop} (h : Owned V T s) (h' : Owned V' T s) : ∃ c, V c ∧ V' c := by
  obtain ⟨e, he, hv⟩ := h
  obtain ⟨e', he', hv'⟩ := h'
  obtain rfl := Option.mem_unique he he'
  exact ⟨_, hv, hv'⟩

/-- **Every jump goes through the block that was made for it.** -/
theorem Finished.route (hfin : Finished cx s) (hj : JumpsFrom cx s o source T) :
    ∃ b, RouteFrom cx s (· = o) (.jump T) (leftHandlers cx.table source (.jump T)) b := by
  obtain ⟨bci, e, i, he, hi, hT, rfl, rfl⟩ := hj
  obtain ⟨B, O, s0, s1, rfl, hbegin, hrun, hevolves⟩ := hfin.lifted _ he
  obtain ⟨j, last, t, hj, htail⟩ := (hbegin.liftBlock.of_run hrun).tail
  have hlast : LastOf cx B.start j :=
    ⟨B, hbegin.mem, Int.le_refl _, by exact_mod_cast hbegin.tiled.start_lt_stop hbegin.mem, hj⟩
  obtain rfl := hi.unique hbegin.tiled hlast
  rw [hbegin.owner] at htail
  have hop : i.op ≠ .athrow ∧ i.op ≠ .endfinally := by
    constructor <;> intro hop <;> simp [exits, hop] at hT
  obtain ⟨D, hg, -⟩ := hfin.good
  rcases (htail.mono hevolves (.refl t)).exits hop.1 hop.2 with ⟨hret, -⟩ | hroutes
  · rw [exits_of_return hret] at hT
    simp at hT
  · obtain ⟨b, -, hroute⟩ := exists_of_mem_left hroutes hT
    exact ⟨b, leftHandlers_eq hg.toGoodRegions i.bci (.jump T) ▸ hroute⟩

/-- **The destination of a block that leaves regions has the owner of a jump that goes through the block.** -/
theorem Finished.vouched (hfin : Finished cx s) {hs : List Int} (hleaf : ((hs, .jump T), b) ∈ s.leaves) (hne : hs ≠ []) :
    ∃ h, hs.getLast? = some h ∧ Owned (JumpsThrough cx s T h) T s := by
  obtain ⟨D, hg, -⟩ := hfin.good
  induction hs generalizing b with
  | nil => exact absurd rfl hne
  | cons h hs ih =>
    obtain ⟨next, -, hroute⟩ := (hg.leaf hleaf).resolve_left (by simp)
    cases hs with
    | nil => exact ⟨h, rfl, hroute.2.mono (.refl s) fun _ hv => hv rfl T rfl⟩
    | cons h' hs =>
      obtain ⟨r, hr, howned⟩ := ih hroute (by simp)
      exact ⟨r, by rw [getLast?_cons_cons, hr], howned⟩

end Lift

open Lift

/-- **The jumps to a block come from code of its owner just if those that leave the same last region come from code of
one owner.** A jump that leaves no region always comes from code of the owner of its destination, and the code of a
cleanup handler belongs to the region of the handler. -/
theorem liftMethod_owners {m : Method} {settings : Settings} {mod : Ir.Module} {cx : Lift.Context}
    (h : liftMethod m settings = .ok mod) (hcx : Lift.context m settings = .ok cx) :
    ∃ s, cx.build.run { builder := Ir.Builder.new m.key } = (.ok (), s) ∧
      (∀ r ∈ cleanups m.exceptions, ∀ e, (r.handler, e) ∈ s.entries → e.owner.head? = some r.handler) ∧
      (∀ o source T, JumpsFrom cx s o source T → leftHandlers m.exceptions source (.jump T) = [] → Owned (· = o) T s) ∧
      ∀ T, (∀ o source, JumpsFrom cx s o source T → Owned (· = o) T s) ↔
        ∀ r o o', JumpsThrough cx s T r o → JumpsThrough cx s T r o' → o = o' := by
  obtain ⟨s, hrun, -, hfin, -⟩ := liftMethod_ends h hcx
  obtain ⟨rfl, -, -⟩ := context_ok hcx
  obtain ⟨D, hgood, -⟩ := hfin.good
  have hstays {o : Option Int} {source T : Int} (hj : JumpsFrom cx s o source T)
      (hnil : leftHandlers cx.table source (.jump T) = []) : Owned (· = o) T s := by
    obtain ⟨b, hroute⟩ := hfin.route hj
    rw [hnil] at hroute
    exact hroute.2
  refine ⟨s, hrun, fun r hr e he => (hgood.scheduled he).2.1 r hr rfl, fun o source T hj => hstays hj,
    fun T => ⟨fun hall r o o' hj hj' => ?_, fun hone o source hj => ?_⟩⟩
  · obtain ⟨_, hj, -⟩ := hj
    obtain ⟨_, hj', -⟩ := hj'
    obtain ⟨c, rfl, rfl⟩ := (hall o _ hj).unique (hall o' _ hj')
    rfl
  · cases hleft : leftHandlers cx.table source (.jump T) with
    | nil => exact hstays hj hleft
    | cons r rs =>
      -- the jump leaves the same last region as the one that was checked
      obtain ⟨b, hleaf⟩ := hfin.route hj
      rw [hleft] at hleaf
      obtain ⟨x, hlast, howned⟩ := hfin.vouched hleaf (by simp)
      exact howned.mono (.refl s) fun c hc => hone x c o hc ⟨source, hj, hleft ▸ hlast⟩

/-- A jump out of a range with cleanup code. -/
def leavingJump : Method :=
  { owner := "T", name := "f", desc := "()V", isStatic := true
    code := [0xa7, 0x00, 0x04, 0xcb, 0xb1]
    exceptions := [{ start := 0, stop := 3, handler := 3, isCleanup := true }] }

theorem leavingJump_owners : ∃ cx s, Lift.context leavingJump {} = .ok cx ∧
    cx.build.run { builder := Ir.Builder.new leavingJump.key } = (.ok (), s) ∧
    leftHandlers leavingJump.exceptions 0 (.jump 4) = [3] ∧ JumpsFrom cx s none 0 4 ∧ Owned (· = none) 4 s := by
  have hlifted : (Lift.lifts leavingJump fun _ cx =>
      match cx.build.run { builder := Ir.Builder.new leavingJump.key } with
      | (_, s) => decide (JumpsFrom cx s none 0 4) && s.entries.all fun x =>
          cx.partition.blocks.all fun B => B.insts.all fun i => LastOf cx x.1 i → .jump 4 ∈ i.exits → x.2.owner = []) = true := by
    decide +kernel
  obtain ⟨mod, cx, hmod, hcx, hlifted⟩ := Lift.exists_of_lifts hlifted
  obtain ⟨s, hrun, -, -, hiff⟩ := liftMethod_owners hmod hcx
  rw [hrun] at hlifted
  simp only [Bool.and_eq_true, decide_eq_true_eq, List.all_eq_true] at hlifted
  obtain ⟨hjump, hall⟩ := hlifted
  -- all code that jumps there is outside of regions
  have hnone {r : Int} {o : Option Int} (hj : JumpsThrough cx s 4 r o) : o = none := by
    obtain ⟨source, ⟨bci, e, i, he, hlast, hexit, -, rfl⟩, -⟩ := hj
    obtain ⟨B, hB, -, -, hB'⟩ := id hlast
    rw [hall (bci, e) he B hB i (List.mem_of_getLast? hB') hlast hexit]
    rfl
  refine ⟨cx, s, hcx, hrun, by decide, hjump, (hiff 4).2 (fun r o o' hj hj' => ?_) none 0 hjump⟩
  rw [hnone hj, hnone hj']

/-- Two pieces of code that jump to the same block through the same region: the cleanup code at 8, and the handler
at 11, which is no cleanup code. -/
def sharedCleanup : Method :=
  { owner := "T", name := "g", desc := "(I)V", isStatic := true
    maxStack := 1, maxLocals := 1
    code := [0x1a, 0x9a, 0x00, 0x05, 0x01, 0xbf, 0x01, 0xbf, 0xa7, 0x00, 0x07, 0x57, 0xa7, 0x00, 0x03, 0xcb, 0xcb]
    exceptions := [{ start := 6, stop := 8, handler := 8, isCleanup := true },
      { start := 8, stop := 11, handler := 16, isCleanup := true },
      { start := 11, stop := 15, handler := 16, isCleanup := true }, { start := 4, stop := 6, handler := 11 }] }

/-- **Code that belongs to no region may jump into the code of a region.** -/
theorem sharedCleanup_owners : ∃ mod cx s, liftMethod sharedCleanup {} = .ok mod ∧ Lift.context sharedCleanup {} = .ok cx ∧
    cx.build.run { builder := Ir.Builder.new sharedCleanup.key } = (.ok (), s) ∧ JumpsFrom cx s none 12 15 ∧
    Owned (· = some 8) 15 s := by
  have hlifted : (Lift.lifts sharedCleanup fun _ cx =>
      match cx.build.run { builder := Ir.Builder.new sharedCleanup.key } with
      | (_, s) => decide (JumpsFrom cx s none 12 15) && decide (Owned (· = some 8) 15 s)) = true := by
    decide +kernel
  obtain ⟨mod, cx, hmod, hcx, hlifted⟩ := Lift.exists_of_lifts hlifted
  obtain ⟨s, hrun, -⟩ := liftMethod_ends hmod hcx
  rw [hrun] at hlifted
  simp only [Bool.and_eq_true, decide_eq_true_eq] at hlifted
  exact ⟨mod, cx, s, hmod, hcx, hrun, hlifted.1, hlifted.2⟩

end Bytelift
