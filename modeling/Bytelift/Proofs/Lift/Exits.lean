import Bytelift.Proofs.Lift.Cleanups

/-!
# Normal exits

A jump, a branch, a switch, a fall-through or a return that leaves cleanup regions goes through one block
for each of them. Such a block enters its region and selects the block for the next region, or the
destination behind the last one.

Results:
* `liftMethod_exits`: **a normal exit runs each region that it leaves once, in order, and then arrives.**
-/

namespace Bytelift

open Ir List Instruction Opcode
open Machine (Caller Config Excursion)

/-- A block that is made for leaving: it enters one region and goes to the code of the region. -/
def Ir.Module.LeavesInto (m : Module) (h : Int) (code b : BlockId) : Prop :=
  ∃ k, m.block? b = some k ∧ k.kind = .leave ∧ k.term = .goto code ∧ ∀ h', m.EntersRegion h' b ↔ h' = h

/-- The code of a block goes on in another block of the same bytecode block. -/
def Ir.Module.GoesOn (m : Module) (k : Block) : Prop :=
  ∃ x ∈ k.term.ways, ∃ k', m.block? x = some k' ∧ (k'.kind = .continue ∨ k'.kind = .loop)

instance (m : Module) (k : Block) : Decidable (m.GoesOn k) :=
  decidable_of_iff (∃ x ∈ k.term.ways, (m.block? x).any fun k' => k'.kind = .continue ∨ k'.kind = .loop) <| by
  simp only [Option.any_eq_true, decide_eq_true_eq, Module.GoesOn]

namespace Lift

/-- Where an exit ends; `shared` is the block that returns behind cleanup code. -/
def Arrival (cx : Context) (shared : Option BlockId) : Exit → BlockId → Prop
  | .jump t, b => b = cx.blockOf t
  | .ret, b => shared = some b

/-- Control runs the cleanup code of the given regions in order, enters each of them through a block that is
made for it and enters no other region there, and then arrives. This is said of the runs in which the code
of each region comes to its end, and the region is not entered again before. -/
def Tours (call : Caller) (cx : Context) (mod : Module) (arrives : BlockId → Prop) : List Int → Config → Prop
  | [], c => arrives c.block
  | h :: hs, c => mod.LeavesInto h (cx.blockOf h) c.block ∧
    ∀ c', Excursion call mod (fun b => ¬ mod.EntersRegion h b) h c c' → Tours call cx mod arrives hs c'

variable {cx : Context} {s : State} {m : Module} {call : Caller} {i : Instruction} {t : Terminator}

/-- A return that leaves no region ends the method at once. -/
def Tail.ReturnsAtOnce (s : State) (i : Instruction) (t : Terminator) : Prop :=
  i.op.isReturn = true ∧ exitedRegions s.regions i.bci .ret = [] ∧ ∃ v, t = .ret v

/-- **The ways out of a block are the routes of the exits of its last bytecode instruction.** -/
theorem Tail.exits {o : Option Int} {last : Option ValueId} (h : Tail cx s o i last t) (hthrow : i.op ≠ .athrow)
    (hend : i.op ≠ .endfinally) :
    Tail.ReturnsAtOnce s i t ∨ Forall₂ (Route cx s o i.bci) i.exits t.ways := by
  have passes {x : BlockId} (hp : Passes t x) : t.ways = [x] := by
    rcases hp with rfl | rfl | ⟨u, rfl⟩ <;> rfl
  cases h with
  | jump hp hop hr =>
    rw [passes hp, exits_of_goto hop]
    exact .inr (.cons hr .nil)
  | fall hp hop hr =>
    rw [passes hp, exits_of_falls hop]
    exact .inr (.cons hr .nil)
  | branch hop hr hr' =>
    rw [exits_of_conditional hop]
    exact .inr (.cons hr (.cons hr' .nil))
  | switch hop hs hc hd =>
    rw [exits_of_switch hs, targets, hop]
    refine .inr (.cons hd ?_)
    rw [map_map, forall₂_map_left_iff, forall₂_map_right_iff]
    exact hc.imp fun _ _ h => h.2
  | ret hop hnil => exact .inl ⟨hop, hnil, _, rfl⟩
  | leave hp hop hne hr =>
    rw [passes hp, exits_of_return hop]
    exact .inr (.cons hr .nil)
  | throw hop => exact absurd hop hthrow
  | finish hop => exact absurd hop hend

namespace Finished

/-- A block that is made for leaving leads into one region. -/
theorem leavesInto (hfin : Finished cx s) {b next : BlockId} {h : Int} (he : Enters cx s .leave b h next) :
    s.mod.LeavesInto h (cx.blockOf h) b := by
  obtain ⟨D, hg, -⟩ := hfin.good
  have honly := he.entersRegion_iff hg.toGoodRegions
  obtain ⟨r, hr, rfl, key, i, j, -, ⟨k, hk, hkind, ht, -⟩, -⟩ := he
  exact ⟨k, hk, hkind, ht, honly⟩

/-- **A route runs its regions in order and arrives.** -/
theorem tours (hfin : Finished cx s) (hsize : s.mod.blocks.size ≤ 2 ^ 31) {exit : Exit}
    {V : Option Int → Prop} {hs : List Int} {c : Config} (hr : RouteFrom cx s V exit hs c.block) :
    Tours call cx s.mod (Arrival cx s.returnBlock exit) hs c := by
  obtain ⟨D, hg, -⟩ := hfin.good
  induction hs generalizing c V with
  | nil =>
    cases exit with
    | jump t => exact hr.1
    | ret => exact hr
  | cons h hs ih =>
    obtain ⟨next, he, hnext⟩ := (hg.leaf hr).resolve_left (by simp)
    refine ⟨hfin.leavesInto he, fun c' hx => ?_⟩
    obtain rfl := hfin.excursion hsize he (fun b hb => hb) hx
    exact ih hnext

/-- A block that ends its bytecode block has its terminator from the last instruction. -/
theorem tail_of_block (hfin : Finished cx s) {b : BlockId} {k : Block} (hk : s.mod.block? b = some k)
    (hcode : holdsCode k.kind = true) (hi : LastOf cx k.start i) (hlast : ¬ s.mod.GoesOn k) (hne : k.term ≠ .unreachable) :
    ∃ o, Tail cx s o i k.insts.back? k.term := by
  obtain ⟨D, hg, -⟩ := hfin.good
  have hterm := (hg.block hk).code hcode (hfin.complete.term hk)
  unfold Module.GoesOn at hlast
  generalize k.term = t at hterm hlast hne
  cases hterm with
  | split h =>
    obtain ⟨-, k', hk', hkind⟩ := h
    exact absurd ⟨_, mem_singleton_self _, k', hk', .inl hkind⟩ hlast
  | enter h =>
    obtain ⟨k', hk', hkind⟩ := h
    exact absurd ⟨_, mem_singleton_self _, k', hk', .inr hkind⟩ hlast
  | loop h h' =>
    obtain ⟨k', hk', hkind⟩ := h
    exact absurd ⟨_, mem_cons_self, k', hk', .inr hkind⟩ hlast
  | tail hi' h =>
    obtain rfl := hi.unique hfin.tiled hi'
    exact ⟨_, h⟩
  | idle => exact absurd rfl hne

end Finished

end Lift

/-- **A normal exit runs each region that it leaves once, in order, and then arrives.** A block that ends a
bytecode block has one way for each exit of the last instruction. Behind the last region control is at the
block of the target, for a return at the block that all such returns share; without a region it is there at
once, and a return ends the method. Blocks are numbered with 32 bits. -/
theorem liftMethod_exits {m : Method} {settings : Settings} {mod : Module} {cx : Lift.Context}
    (h : liftMethod m settings = .ok mod) (hcx : Lift.context m settings = .ok cx) (hsize : mod.blocks.size ≤ 2 ^ 31) :
    ∃ shared : Option BlockId, (∀ b, shared = some b → ∃ k, mod.block? b = some k ∧ k.kind = .return) ∧
      ∀ {b k i}, mod.block? b = some k → Lift.holdsCode k.kind = true → Lift.LastOf cx k.start i → ¬ mod.GoesOn k →
        k.term ≠ .unreachable → i.op ≠ .athrow → i.op ≠ .endfinally →
        (i.op.isReturn = true ∧ Lift.leftHandlers m.exceptions i.bci .ret = [] ∧ ∃ v, k.term = .ret v) ∨
          List.Forall₂ (fun exit x => ∀ call c, c.block = x →
            Lift.Tours call cx mod (Lift.Arrival cx shared exit)
              (Lift.leftHandlers m.exceptions i.bci exit) c) i.exits k.term.ways := by
  obtain ⟨s, hfin, rfl⟩ := Lift.liftMethod_finished h hcx
  obtain ⟨rfl, -, -⟩ := Lift.context_ok hcx
  obtain ⟨D, hg, -⟩ := hfin.good
  have hleft := Lift.leftHandlers_eq hg.toGoodRegions
  refine ⟨s.returnBlock, fun b hb => hg.ret hb, fun {b k i} hk hcode hi hlast hne hthrow hend => ?_⟩
  · obtain ⟨o, htail⟩ := hfin.tail_of_block hk hcode hi hlast hne
    rcases htail.exits hthrow hend with ⟨hret, hnil, hv⟩ | hroutes
    · exact .inl ⟨hret, (hleft i.bci .ret).trans (by rw [hnil]; rfl), hv⟩
    · refine .inr (hroutes.imp fun exit x hroute call c hc => ?_)
      subst hc
      rw [← Lift.Context.table, hleft]
      exact hfin.tours hsize hroute

/-- The return of the quotient leaves the region of the cleanup code at bci 4: it goes there through a block
that is made for it, and returns behind the cleanup code. -/
theorem guardedQuotient_exits : ∃ mod cx shared x, liftMethod guardedQuotient {} = .ok mod ∧
    Lift.leftHandlers guardedQuotient.exceptions 3 .ret = [4] ∧ (mod.block? x).any (·.kind == .leave) = true ∧
    ∀ call c, c.block = x → Lift.Tours call cx mod (Lift.Arrival cx shared .ret) [4] c := by
  have hlifted : (Lift.lifts guardedQuotient fun mod cx => mod.blocks.size ≤ 2 ^ 31 &&
        mod.blocks.toList.zipIdx.any fun (k, n) => (mod.block? n == some k) && Lift.holdsCode k.kind &&
          (match k.term with | .goto x => (mod.block? x).any (·.kind == .leave) | _ => false) &&
          cx.partition.blocks.any fun B => B.start ≤ k.start && k.start < B.stop &&
            B.insts.getLast?.any fun i => i.bci == 3 && i.op.isReturn) = true := by
    decide +kernel
  obtain ⟨mod, cx, hmod, hcx, hlifted⟩ := Lift.exists_of_lifts hlifted
  simp only [Bool.and_eq_true, decide_eq_true_eq, List.any_eq_true, beq_iff_eq] at hlifted
  obtain ⟨hsize, ⟨k, n⟩, -, ⟨⟨hk, hcode⟩, hgoto⟩, B, hB, ⟨hle, hlt⟩, hlast⟩ := hlifted
  obtain ⟨i, hi, hi'⟩ := (Option.any_eq_true _ _).1 hlast
  simp only [Bool.and_eq_true, beq_iff_eq] at hi'
  obtain ⟨hbci, hret⟩ := hi'
  have hleft : Lift.leftHandlers guardedQuotient.exceptions 3 .ret = [4] := by decide
  cases ht : k.term with
  | goto x =>
    rw [ht] at hgoto
    obtain ⟨k', hk', hkind⟩ := (Option.any_eq_true _ _).1 hgoto
    have hno : ¬ mod.GoesOn k := by
      rintro ⟨y, hy, k₁, hk₁, hkind₁⟩
      rw [ht] at hy
      obtain rfl := List.mem_singleton.1 hy
      obtain rfl := Option.mem_unique hk' hk₁
      simp_all
    have hop : i.op ≠ .athrow ∧ i.op ≠ .endfinally := by
      constructor <;> intro hop <;> rw [hop] at hret <;> cases hret
    obtain ⟨shared, -, hall⟩ := liftMethod_exits hmod hcx hsize
    rcases hall hk hcode ⟨B, hB, hle, hlt, hi⟩ hno (by rw [ht]; simp) hop.1 hop.2 with ⟨-, hnil, -⟩ | hways
    · rw [hbci] at hnil
      exact absurd (hleft.symm.trans hnil) (by simp)
    · rw [ht, Instruction.exits_of_return hret, hbci] at hways
      obtain _ | ⟨htour, -⟩ := hways
      rw [show ((3 : Nat) : Int) = 3 from rfl, hleft] at htour
      exact ⟨mod, cx, shared, x, hmod, hleft, hgoto, htour⟩
  | _ => rw [ht] at hgoto; cases hgoto

end Bytelift
