import Bytelift.Proofs.Simulation.Arrays
import Bytelift.Proofs.Simulation.Calls

/-!
# Lifting instructions

Every instruction behind which control goes on keeps the cursor in an open block with a usable stack; an
instruction that transfers control ends its block as it says, and has to be the last of its bytecode
block.

Result:
* `Ready.lift`: **an instruction is lifted, or refused for a reason that lies in the method**.
-/

namespace Bytelift.Lift

open Ir List

variable {cx : Context} {B : CodeBlock} {O : Rest} {s s' : State} {v : ValueId} {ty : Ty} {i : Instruction}

/-! ## Straight-line instructions -/

section

variable (h : Ready cx B O s)

include h

theorem Ready.pushInt (n : Int64) : Wp (cx.pushInt n) s fun _ s' => Advances cx B O s s' := by
  refine (h.constants n).bind fun c s1 ⟨ha, hc, _⟩ => ?_
  exact ((h.appends ha).push hc).mono fun _ s2 hs2 => (h.advance ha).trans hs2

theorem Ready.pushPure {i : Inst} (hargs : i.args = [])
    (hop : i.op ≠ .landingpad ∧ IsPlain i.op) : Wp (cx.emitPush i) s fun _ s' => Advances cx B O s s' :=
  h.emitPush (.of_uses (by simp [hargs]) hop)

theorem Ready.liftStore (i : Instruction) (lane : Lane) :
    Wp (cx.liftStore i lane) s fun _ s' => Advances cx B O s s' := by
  refine (h.popTy (laneTy lane)).bind fun v s1 ⟨ha1, hv, _⟩ => ?_
  exact (ha1.ready.stores (.local _) hv).mono fun _ s2 ⟨ha2, _⟩ => ha1.trans (ha1.ready.advance ha2)

theorem Ready.liftIncrement (i : Instruction) :
    Wp (cx.liftIncrement i) s fun _ s' => Advances cx B O s s' := by
  refine (h.loads (.local _) .i32).bind fun v s1 ⟨ha1, hv, _⟩ => ?_
  refine (ha1.working.constants _).bind fun d s2 ⟨ha2, hd, _⟩ => ?_
  refine (ha2.working.emit (.binary rfl (by simp) (ha2.proceeds.use hv) hd)).bind fun sum s3 ⟨ha3, hsum, _⟩ => ?_
  have ha := (ha1.trans ha2).trans ha3
  exact (ha.working.stores (.local _) hsum).mono fun _ s4 ⟨ha4, _⟩ => h.advance (ha.trans ha4)

theorem Ready.liftConstant (i : Instruction) :
    Wp (cx.liftConstant i) s fun _ s' => Advances cx B O s s' := by
  unfold Context.liftConstant
  split
  · exact wp_failAt (by decide : _ ∈ Reason.poolUses)
  split
  · exact h.pushInt _
  · exact h.pushPure rfl (by simp)
  · refine (h.emitPure rfl (by simp)).bind fun v s1 ⟨ha1, hv⟩ => ?_
    refine (ha1.working.markNonNull v).bind fun _ s2 ha2 => ?_
    have ha := ha1.trans ha2
    exact ((h.appends ha).push (ha2.proceeds.use hv)).mono fun _ s3 hs3 => (h.advance ha).trans hs3
  · exact h.pushPure rfl (by simp)
  · exact h.pushPure rfl (by simp)
  · exact wp_failAt trivial
  · exact wp_failAt trivial

/-- The array and the index of an element can be used behind their checks. -/
theorem Ready.popElement :
    Wp cx.popElement s fun p s' => Advances cx B O s s' ∧ s'.mod.Use s'.cursor.block p.1 .ref ∧
      s'.mod.Use s'.cursor.block p.2 .i32 := by
  refine (h.popTy .i32).bind fun index s1 ⟨ha1, hindex, _⟩ => ?_
  refine (ha1.ready.popTy .ref).bind fun arr s2 ⟨ha2, harr, _⟩ => ?_
  refine (ha2.ready.passesNull harr).bind fun _ s3 ⟨ha3, _⟩ => ?_
  have harr3 := ha3.proceeds.use harr
  have hindex3 := ha3.proceeds.use (ha2.proceeds.use hindex)
  refine (ha3.working.check (by simp) fun a hm => ?_).bind fun _ s4 hs4 => ?_
  · rcases mem_cons.1 hm with rfl | hm
    · exact ⟨_, harr3⟩
    · exact ⟨_, mem_singleton.1 hm ▸ hindex3⟩
  · obtain ⟨ha4, -⟩ := hs4
    exact ⟨(ha1.trans ha2).trans (ha2.ready.advance (ha3.trans ha4)), ha4.proceeds.use harr3,
      ha4.proceeds.use hindex3⟩

theorem Ready.liftArrayLoad (elem : Elem) :
    Wp (cx.liftArrayLoad elem) s fun _ s' => Advances cx B O s s' := by
  refine h.popElement.bind fun p s1 ⟨ha1, harr, hindex⟩ => ?_
  exact (ha1.ready.emitPush (.binary rfl (by simp) harr hindex)).mono fun _ s2 hs2 => ha1.trans hs2

theorem Ready.liftArrayStore (elem : Elem) :
    Wp (cx.liftArrayStore elem) s fun _ s' => Advances cx B O s s' := by
  refine (h.popTy _).bind fun v s1 ⟨ha1, hv, _⟩ => ?_
  refine ha1.ready.popElement.bind fun p s2 ⟨ha2, harr, hindex⟩ => ?_
  refine (ha2.ready.emit (.of_uses (fun a hm => ?_) (by simp))).bind fun _ s3 hs3 => ?_
  · have hm : a = p.1 ∨ a = p.2 ∨ a = v := by simpa using hm
    rcases hm with rfl | rfl | rfl
    · exact ⟨_, harr⟩
    · exact ⟨_, hindex⟩
    · exact ⟨_, ha2.proceeds.use hv⟩
  · exact (ha1.trans ha2).trans (ha2.ready.advance hs3.1)

end

/-- A shuffle only rearranges what is on the stack. -/
theorem mem_of_shuffle {α : Type} {wide : α → Bool} {op : StackOp} {l l' : List α}
    (h : shuffle wide op l = some l') {a : α} (ha : a ∈ l') : a ∈ l := by
  revert h
  fun_cases shuffle wide op l <;> intro h <;> cases h <;> grind

theorem Ready.liftShuffle (h : Ready cx B O s) (op : StackOp) :
    Wp (Context.liftShuffle op) s fun _ s' => Advances cx B O s s' := by
  refine wp_bind.2 (wp_get.2 ?_)
  split
  · rename_i stack hst
    exact h.toWorking.setStack fun e he => h.stack e (mem_of_shuffle hst he)
  · exact wp_failHere trivial

theorem Ready.liftBinary (h : Ready cx B O s) (first second : Ty) {i : Inst}
    (hop : i.op ≠ .landingpad ∧ IsPlain i.op) : Wp (cx.liftBinary first second i) s fun _ s' => Advances cx B O s s' := by
  refine (h.popTy second).bind fun b s1 ⟨ha1, hb, _⟩ => ?_
  refine (ha1.ready.popTy first).bind fun a s2 ⟨ha2, ha, _⟩ => ?_
  exact (ha2.ready.emitPush (i := { i with args := [a, b] }) (.binary rfl hop ha (ha2.proceeds.use hb))).mono fun _ s3 hs3 => (ha1.trans ha2).trans hs3

theorem Ready.liftUnary (h : Ready cx B O s) (ty : Ty) {f : ValueId → Inst} (hargs : ∀ v, (f v).args = [v])
    (hop : ∀ v, (f v).op ≠ .landingpad ∧ IsPlain (f v).op) :
    Wp (Context.popTy ty >>= fun v => cx.emitPush (f v)) s fun _ s' => Advances cx B O s s' := by
  refine (h.popTy ty).bind fun v s1 ⟨ha1, hv, _⟩ => ?_
  exact (ha1.ready.emitPush (.unary (hargs v) (hop v) hv)).mono fun _ s2 hs2 => ha1.trans hs2

theorem bitOp_ne (op : BitOp) : bitOp op ≠ .landingpad ∧ IsPlain (bitOp op) := by
  cases op <;> simp [bitOp]

theorem arithOp_ne (op : ArithOp) : arithOp op ≠ .landingpad ∧ arithOp op ≠ .loadSlot ∧ arithOp op ≠ .storeSlot := by
  cases op <;> simp [arithOp]

theorem conversion_ne (c : Conversion) : (conversion c).1 ≠ .landingpad ∧ IsPlain (conversion c).1 := by
  cases c <;> simp [conversion]

theorem divides_arith {op : ArithOp} {num : Num} {i : Inst} (hop : i.op = arithOp op) (hty : i.ty = numTy num)
    (hd : Divides i) : (op = .div ∨ op = .rem) ∧ (num = .int ∨ num = .long) := by
  obtain ⟨h1, h2⟩ := hd
  rw [hop] at h1
  rw [hty] at h2
  exact ⟨by cases op <;> simp_all [arithOp], by cases num <;> simp_all [numTy, laneTy, Num.lane]⟩

theorem Working.checkDivisor (h : Working cx B O s) (op : ArithOp) (num : Num)
    (hv : s.mod.Use s.cursor.block v ty) : Wp (cx.checkDivisor op num v) s fun _ s' => Appends cx B O s s' ∧
      ((op = .div ∨ op = .rem) ∧ (num = .int ∨ num = .long) → NonZeroHere s' v) := by
  unfold Context.checkDivisor
  split
  · exact (h.checkDivZero hv).mono fun _ _ hs => ⟨hs.1, fun _ => hs.2⟩
  · rename_i hno
    exact ⟨h.appends, fun hd => absurd hd hno⟩

theorem Ready.liftArith (h : Ready cx B O s) (op : ArithOp) (num : Num) :
    Wp (cx.liftArith op num) s fun _ s' => Advances cx B O s s' := by
  unfold Context.liftArith
  split
  · exact h.liftUnary _ (fun _ => rfl) (by simp)
  refine (h.popTy (numTy num)).bind fun b s1 ⟨ha1, hb, _⟩ => ?_
  refine (ha1.ready.popTy (numTy num)).bind fun a s2 ⟨ha2, ha, _⟩ => ?_
  have hb2 := ha2.proceeds.use hb
  refine (ha2.ready.checkDivisor op num hb2).bind fun _ s3 ⟨ha3, hz⟩ => ?_
  have hadv := (ha1.trans ha2).trans (ha2.ready.advance ha3)
  have hfit : Fitting O.depth s3 { op := arithOp op, ty := numTy num, args := [a, b] } := {
    args := fun x hx => by
      rcases mem_cons.1 hx with rfl | hx
      · exact ⟨_, ha3.proceeds.use ha⟩
      · exact ⟨_, mem_singleton.1 hx ▸ ha3.proceeds.use hb2⟩
    op := (arithOp_ne op).1
    store := fun hx => absurd hx (arithOp_ne op).2.2
    divisor := fun hd => ⟨a, b, rfl, hz (divides_arith rfl rfl hd)⟩
    slot := fun hx => (hx.elim (arithOp_ne op).2.1 (arithOp_ne op).2.2).elim }
  exact (hadv.ready.emitPush hfit).mono fun _ s4 hs4 => hadv.trans hs4

theorem Ready.liftField (h : Ready cx B O s) (i : Instruction) (op : FieldOp) :
    Wp (cx.liftField i op) s fun _ s' => Advances cx B O s s' := by
  have hpool {Q : FieldRef × Ty → State → Prop} (hq : ∀ p, Q p s) : Wp (cx.poolField i) s Q := by
    unfold Context.poolField
    split
    · exact wp_failAt (by decide : _ ∈ Reason.poolUses)
    · split
      · exact wp_failAt trivial
      · exact hq _
  refine wp_bind.2 (hpool fun p => ?_)
  cases op with
  | getStatic => exact h.pushPure rfl (by simp)
  | putStatic =>
    refine (h.popTy p.2).bind fun v s1 ⟨ha1, hv, _⟩ => ?_
    exact (ha1.ready.emit (.unary rfl (by simp) hv)).bind fun _ s2 hs2 =>
      ha1.trans (ha1.ready.advance hs2.1)
  | getField =>
    refine (h.popTy .ref).bind fun obj s1 ⟨ha1, hobj, _⟩ => ?_
    refine (ha1.ready.passesNull hobj).bind fun _ s2 ⟨ha2, _⟩ => ?_
    have hadv := ha1.trans (ha1.ready.advance ha2)
    exact (hadv.ready.emitPush (.unary rfl (by simp) (ha2.proceeds.use hobj))).mono fun _ s3 hs3 =>
      hadv.trans hs3
  | putField =>
    refine (h.popTy p.2).bind fun v s1 ⟨ha1, hv, _⟩ => ?_
    refine (ha1.ready.popTy .ref).bind fun obj s2 ⟨ha2, hobj, _⟩ => ?_
    refine (ha2.ready.passesNull hobj).bind fun _ s3 ⟨ha3, _⟩ => ?_
    have hadv := (ha1.trans ha2).trans (ha2.ready.advance ha3)
    exact (hadv.ready.emit (.binary rfl (by simp) (ha3.proceeds.use hobj)
      (ha3.proceeds.use (ha2.proceeds.use hv)))).bind fun _ s4 hs4 => hadv.trans (hadv.ready.advance hs4.1)

theorem Ready.liftInvoke (h : Ready cx B O s) (i : Instruction) (op : InvokeOp) :
    Wp (cx.liftInvoke i op) s fun _ s' => Advances cx B O s s' := by
  unfold Context.liftInvoke
  split
  · exact wp_failAt trivial
  · split
    · exact wp_failAt (by decide : _ ∈ Reason.poolUses)
    · exact (h.liftsCall i _ _).mono fun _ _ hs => hs.1

/-! ## Transfers of control -/

theorem Advances.finishes {s'' : State} (h : Advances cx B O s s') (h' : Finishes cx B O s' s'') :
    Finishes cx B O s s'' :=
  { h' with evolves := h.proceeds.evolves.trans h'.evolves }

theorem AtLast.mono (h : AtLast B s i) (hp : Proceeds s s') : AtLast B s' i := ⟨h.last, hp.bci.trans h.bci⟩

section

variable (h : Ready cx B O s)

include h

/-- **A branch ends its block** with the two ways that it may take. -/
theorem Ready.liftBranch (hi : AtLast B s i) (hop : i.op.isConditional = true) (p : Pred)
    {a b : ValueId} {ty' : Ty} (ha : s.mod.Use s.cursor.block a ty) (hb : s.mod.Use s.cursor.block b ty') :
    Wp (cx.liftBranch i p a b) s fun _ s' => Finishes cx B O s s' := by
  refine (h.deep.emit (.binary rfl (by simp) ha hb)).bind fun cond s1 ⟨ha1, hcond, _⟩ => ?_
  have hexits := Instruction.exits_of_conditional hop
  refine (ha1.working.edge (hi.mono ha1.proceeds) (by simp [hexits]) ha1.room).bind fun taken s2 ⟨ha2, hroute, htaken⟩ => ?_
  have ha12 := ha1.trans ha2
  refine (ha2.working.edge (hi.mono ha12.proceeds) (by simp [hexits]) ha12.room).bind fun fall s3 ⟨ha3, hroute', hfall⟩ => ?_
  have ha13 := ha12.trans ha3
  refine (h.deep.appends ha13).spills.bind fun _ s4 ⟨⟨ha4, hmax⟩, _⟩ => ?_
  rw [ha13.stack] at hmax
  have hall := ha13.trans ha4
  have he34 := ha3.proceeds.evolves.trans ha4.proceeds.evolves
  have hcond4 := ha4.proceeds.use (ha3.proceeds.use (ha2.proceeds.use hcond))
  refine (hall.working.terminate (hi.mono hall.proceeds) (by simp) (by simp) rfl (by simp) (fun hu he k => ?_)
    (fun _ _ => ?_) (fun hj => by cases hj)).mono fun _ s5 hs5 =>
      ((h.deep.advance hall).finishes hs5).counted (hmax.trans hs5.evolves.maxStack)
  · exact ⟨(htaken.mono he34.module).mono he.module, (hfall.mono ha4.proceeds.evolves.module).mono he.module, hu hcond4⟩
  · exact .branch hop (hroute.mono he34) (hroute'.mono ha4.proceeds.evolves)

theorem Ready.liftCompare (hi : AtLast B s i) (hop : i.op.isConditional = true) (p : Pred)
    (ty : Ty) : Wp (cx.liftCompare i p ty) s fun _ s' => Finishes cx B O s s' := by
  refine (h.popTy ty).bind fun b s1 ⟨ha1, hb, _⟩ => ?_
  refine (ha1.ready.popTy ty).bind fun a s2 ⟨ha2, ha, _⟩ => ?_
  have hadv := ha1.trans ha2
  exact (hadv.ready.liftBranch (hi.mono hadv.proceeds) hop p ha (ha2.proceeds.use hb)).mono fun _ s3 hs3 =>
    hadv.finishes hs3

/-- **A jump ends its block**, whichever way it comes about. -/
theorem Ready.jump (hi : AtLast B s i) {x : BlockId} {t : Terminator} (ht : t = .goto x ∨ t = .fallthrough x)
    (htar : s.mod.Target x) (htail : ∀ {s' t' last}, Evolves s s' → Passes t' x → Tail cx s' O.owner.head? i last t') :
    Wp (cx.spill >>= fun _ => cx.terminate t) s fun _ s' => Finishes cx B O s s' ∧ s.cursor.stack.length ≤ s'.maxStack := by
  refine h.spills.bind fun _ s1 ⟨⟨ha1, hmax⟩, _⟩ => ?_
  have he1 := ha1.proceeds.evolves
  have hfin : Wp (cx.terminate t) s1 fun _ s' => Finishes cx B O s1 s' := by
    rcases ht with rfl | rfl
    all_goals
      refine ha1.working.terminate (hi.mono ha1.proceeds) (by simp) (by simp) rfl (by simp)
        (fun _ he _ => (htar.mono he1.module).mono he.module) nofun (fun hj => ?_)
      obtain rfl := Option.some.inj hj
      exact ⟨htar.mono he1.module, fun hp _ _ => htail he1 hp⟩
  exact hfin.mono fun _ s2 hs2 => ⟨(h.advance ha1).finishes hs2, hmax.trans hs2.evolves.maxStack⟩

theorem Ready.liftGoto (hi : AtLast B s i) (hop : i.op = .goto ∨ i.op = .gotoW) :
    Wp (cx.liftGoto i) s fun _ s' => Finishes cx B O s s' := by
  refine (h.deep.edge hi (by simp [Instruction.exits_of_goto hop]) h.deep.toWorking.appends.room).bind fun target s1 ⟨ha1, hroute, htar⟩ => ?_
  exact ((h.deep.appends ha1).jump (hi.mono ha1.proceeds) (.inl rfl) htar fun he hp => .jump hp hop (hroute.mono he)).mono
    fun _ s2 ⟨hs2, hmax⟩ => ((h.deep.advance ha1).finishes hs2).counted (ha1.stack ▸ hmax)

/-- **A switch ends its block** with a way for each of its keys. -/
theorem Ready.liftSwitch (hi : AtLast B s i) (hs : i.op.isSwitch = true) {table : SwitchTable}
    (hop : i.operand = .switch table) : Wp (cx.liftSwitch table) s fun _ s' => Finishes cx B O s s' := by
  refine (h.popTy .i32).bind fun key s1 hs1 => ?_
  obtain ⟨ha1, hkey, -⟩ := hs1
  have hexits : i.exits = table.targets.map .jump := by rw [Instruction.exits_of_switch hs, Instruction.targets, hop]
  unfold SwitchTable.targets at hexits
  -- the arms so far belong to the keys so far
  let I : List (Int × Int) → List SwitchCase → State → Prop := fun l cs s' =>
    Appends cx B (O.deep s1) s1 s' ∧ (∀ c ∈ cs, s'.mod.Target c.target) ∧ ∃ pre, table.cases = pre ++ l ∧
      Forall₂ (fun (kt : Int × Int) c => c.key = kt.1 ∧ Route cx s' O.owner.head? i.bci (.jump kt.2) c.target) pre cs
  refine (wp_mapM (I := I) ?_ ⟨ha1.ready.deep.toWorking.appends, by simp, [], by simp, .nil⟩).bind fun cs s2 hs2 => ?_
  · rintro ⟨k, target⟩ l cs s2 ⟨ha2, htar, pre, hpre, hcs⟩
    refine (ha2.working.edge ((hi.mono ha1.proceeds).mono ha2.proceeds) (by simp [hexits, hpre]) ha2.room).bind fun b s3 hs3 => ?_
    obtain ⟨ha3, hroute, hb⟩ := hs3
    refine ⟨ha2.trans ha3, fun c hc => ?_, pre ++ [(k, target)], by simp [hpre], ?_⟩
    · rcases mem_append.1 hc with hc | hc
      · exact (htar c hc).mono ha3.proceeds.evolves.module
      · exact mem_singleton.1 hc ▸ hb
    · exact rel_append (hcs.imp fun _ _ hx => ⟨hx.1, hx.2.mono ha3.proceeds.evolves⟩) (.cons ⟨rfl, hroute⟩ .nil)
  obtain ⟨ha2, htar, pre, hpre, hcs⟩ := hs2
  obtain rfl : pre = table.cases := by simpa using hpre.symm
  refine (ha2.working.edge ((hi.mono ha1.proceeds).mono ha2.proceeds) (by simp [hexits]) ha2.room).bind fun fallback s3 hs3 => ?_
  obtain ⟨ha3, hroute, hfall⟩ := hs3
  have h3 := ha1.ready.deep.appends (ha2.trans ha3)
  refine h3.spills.bind fun _ s4 ⟨⟨ha4, hmax⟩, _⟩ => ?_
  rw [(ha2.trans ha3).stack] at hmax
  have hall := ha1.ready.deep.advance ((ha2.trans ha3).trans ha4)
  have he4 := ha4.proceeds.evolves
  have hkey4 := ha4.proceeds.use (ha3.proceeds.use (ha2.proceeds.use hkey))
  have hne : fallback ≠ noBlock := by
    rintro rfl
    obtain ⟨k, hk, -⟩ := hfall
    exact absurd (Module.block?_lt hk).1 (by simp [noBlock])
  refine (ha4.working.terminate ((hi.mono ha1.proceeds).mono hall.proceeds) (by simp) (by simp) rfl (by simp [hne])
    (fun hu he k => ?_) (fun _ _ => ?_) (fun hj => by cases hj)).mono fun _ s5 hs5 =>
      ha1.finishes ((hall.finishes hs5).counted (hmax.trans hs5.evolves.maxStack))
  · refine ⟨fun _ => (hfall.mono he4.module).mono he.module, fun c hc => ?_, hu hkey4⟩
    exact ((htar c hc).mono (ha3.proceeds.evolves.trans he4).module).mono he.module
  · exact .switch hop hs (hcs.imp fun _ _ hx => ⟨hx.1, hx.2.mono (ha3.proceeds.evolves.trans he4)⟩)
      (hroute.mono he4) hne

theorem Ready.liftThrow (hi : AtLast B s i) (hop : i.op = .athrow) :
    Wp (Context.popTy .ref >>= fun v => cx.terminate (.throw v noBlock)) s fun _ s' => Finishes cx B O s s' := by
  refine (h.popTy .ref).bind fun v s1 ⟨ha1, hv, _⟩ => ?_
  exact (ha1.ready.terminate (t := .throw v noBlock) (hi.mono ha1.proceeds) (by simp) (by simp) rfl (by simp)
    (fun hu _ _ => ⟨hu hv, absurd rfl⟩) (fun _ _ => .throw hop) (fun hj => by cases hj)).mono
    fun _ s2 hs2 => ha1.finishes hs2

theorem Ready.liftValueReturn (hi : AtLast B s i) (hret : i.op.isReturn = true) (op : Opcode)
    (lane : Lane) : Wp (cx.liftValueReturn op lane) s fun _ s' => Finishes cx B O s s' := by
  refine (h.popTy (laneTy lane)).bind fun v s1 ⟨ha1, hv, _⟩ => ?_
  refine wp_bind.2 (wp_refuseHereIf trivial fun hty => ?_)
  have hv : s1.mod.Use s1.cursor.block v cx.result := not_not.1 hty ▸ hv
  refine (ha1.ready.exitMethod (hi.mono ha1.proceeds) hret (fun hno => ?_) (fun _ => hv)).mono fun _ s2 hs2 =>
    ha1.finishes hs2
  -- a value that can be used is one
  obtain ⟨-, j, hj, -⟩ := hv
  exact absurd (Module.inst?_lt hj).1 (by simp [hno, noValue])

theorem Ready.liftVoidReturn (hi : AtLast B s i) (hret : i.op.isReturn = true) (op : Opcode) :
    Wp (cx.liftVoidReturn op) s fun _ s' => Finishes cx B O s s' := by
  refine wp_bind.2 (wp_refuseHereIf trivial fun hty => ?_)
  exact h.exitMethod hi hret (fun _ => not_not.1 hty) (absurd rfl)

end

/-- How lifting an instruction with an opcode ends. -/
def Lifted (cx : Context) (B : CodeBlock) (O : Rest) (op : Opcode) (s s' : State) : Prop :=
  if op.falls then Lifts cx B O s s' else Finishes cx B O s s'

/-- **An instruction is lifted, or refused for a reason that lies in the method.** -/
theorem Ready.lift (h : Ready cx B O s) (hbci : s.cursor.bci = i.bci)
    (htable : i.op.isSwitch = true → ∃ t, i.operand = .switch t)
    (hlast : i.op.falls = false → B.insts.getLast? = some i) :
    Wp (cx.lift i) s fun _ s' => Lifted cx B O i.op s s' := by
  have falls {op : Opcode} {x : LiftM Unit} (hf : op.falls = true)
      (hx : Wp x s fun _ s' => Advances cx B O s s') : Wp x s fun _ s' => Lifted cx B O op s s' :=
    hx.mono fun _ _ ha => by
      rw [Lifted, if_pos hf]
      exact ha.lifts
  have ends {op : Opcode} {x : LiftM Unit} (hop : i.op = op) (hf : op.falls = false)
      (hx : AtLast B s i → Wp x s fun _ s' => Finishes cx B O s s') : Wp x s fun _ s' => Lifted cx B O op s s' :=
    (hx ⟨hlast (hop ▸ hf), hbci⟩).mono fun _ _ ha => by
      rw [Lifted, hf]
      exact ha
  unfold Context.lift
  cases hop : i.op with
  | nop => exact falls rfl h.advances
  | aconstNull | lconst | fconst | dconst => exact falls rfl (h.pushPure rfl (by simp))
  | load | loadAt => exact falls rfl (h.emitPush (.loading (.local _)))
  | iconst | bipush | sipush => exact falls rfl (h.pushInt _)
  | ldc | ldcW | ldc2W => exact falls rfl (h.liftConstant i)
  | store lane | storeAt lane => exact falls rfl (h.liftStore i lane)
  | iinc => exact falls rfl (h.liftIncrement i)
  | arrayLoad elem => exact falls rfl (h.liftArrayLoad elem)
  | arrayStore elem => exact falls rfl (h.liftArrayStore elem)
  | stack op => exact falls rfl (h.liftShuffle op)
  | arith op num => exact falls rfl (h.liftArith op num)
  | bits op width => exact falls rfl (h.liftBinary _ _ (bitOp_ne op))
  | convert c => exact falls rfl (h.liftUnary _ (fun _ => rfl) fun _ => conversion_ne c)
  | lcmp | fcmp => exact falls rfl (h.liftBinary _ _ (by simp))
  | ifZero p =>
    refine ends hop rfl fun hi => (h.popTy .i32).bind fun v s1 ⟨ha1, hv, _⟩ => ?_
    refine (ha1.ready.constants 0).bind fun z s2 ⟨ha2, hz, _⟩ => ?_
    have hall := ha1.trans (ha1.ready.advance ha2)
    exact (hall.ready.liftBranch (hi.mono hall.proceeds) (by rw [hop]; rfl) p (ha2.proceeds.use hv) hz).mono
      fun _ s3 hs3 => hall.finishes hs3
  | ifInt p => exact ends hop rfl fun hi => h.liftCompare hi (by rw [hop]; rfl) p .i32
  | ifRef equal => exact ends hop rfl fun hi => h.liftCompare hi (by rw [hop]; rfl) _ .ref
  | ifNull isNull =>
    refine ends hop rfl fun hi => (h.popTy .ref).bind fun v s1 ⟨ha1, hv, _⟩ => ?_
    refine (ha1.ready.emitPure rfl (by simp)).bind fun null s2 hs2 => ?_
    obtain ⟨ha2, hnull⟩ := hs2
    have hall := ha1.trans (ha1.ready.advance ha2)
    exact (hall.ready.liftBranch (hi.mono hall.proceeds) (by rw [hop]; rfl) _ (ha2.proceeds.use hv) hnull).mono
      fun _ s3 hs3 => hall.finishes hs3
  | goto => exact ends hop rfl fun hi => h.liftGoto hi (.inl hop)
  | gotoW => exact ends hop rfl fun hi => h.liftGoto hi (.inr hop)
  | tableswitch | lookupswitch =>
    have hs : i.op.isSwitch = true := by rw [hop]; rfl
    obtain ⟨table, ht⟩ := htable hs
    rw [ht]
    exact ends hop rfl fun hi => h.liftSwitch hi hs ht
  | valueReturn lane => exact ends hop rfl fun hi => h.liftValueReturn hi (by rw [hop]; rfl) _ lane
  | voidReturn => exact ends hop rfl fun hi => h.liftVoidReturn hi (by rw [hop]; rfl) _
  | field op => exact falls rfl (h.liftField i op)
  | invoke op => exact falls rfl (h.liftInvoke i op)
  | new => exact falls rfl (h.liftNew i)
  | newarray => exact falls rfl (h.liftNewArray i)
  | anewarray => exact falls rfl (h.liftRefArray i)
  | multianewarray => exact (h.liftsMultiArray hbci).mono fun _ _ hl => hl.1
  | arraylength =>
    refine falls rfl ((h.popTy .ref).bind fun arr s1 ⟨ha1, harr, _⟩ => ?_)
    refine (ha1.ready.passesNull harr).bind fun _ s2 ⟨ha2, _⟩ => ?_
    have hall := ha1.trans (ha1.ready.advance ha2)
    exact (hall.ready.emitPush (.unary rfl (by simp) (ha2.proceeds.use harr))).mono fun _ s3 hs3 =>
      hall.trans hs3
  | athrow => exact ends hop rfl fun hi => h.liftThrow hi hop
  | checkcast =>
    refine falls rfl (wp_bind.2 (wp_poolClass (by decide) fun cls _ => (h.popTy .ref).bind fun v s1 ⟨ha1, hv, _⟩ => ?_))
    refine (ha1.ready.emit (.unary rfl (by simp) hv)).bind fun _ s2 hs2 => ?_
    have hall := ha1.trans (ha1.ready.advance hs2.1)
    exact (hall.ready.push (hs2.1.proceeds.use hv)).mono fun _ s3 hs3 => hall.trans hs3
  | instanceof =>
    exact falls rfl (wp_bind.2 (wp_poolClass (by decide) fun cls _ => h.liftUnary _ (fun _ => rfl) (by simp)))
  | endfinally => exact ends hop rfl fun hi => h.endCleanup hi hop
  | jsr | jsrW | ret | monitorenter | monitorexit | wide | breakpoint | undefined => exact wp_failAt trivial

end Bytelift.Lift
