import Bytelift.Proofs.Lift.Exits

/-!
# Values that are returned behind cleanup code

A return that leaves cleanup regions keeps its value in a temporary, and the block behind the regions returns
what the temporary holds. All such returns of a method share the temporary. A return that is started within
the cleanup code and then given up, because its own cleanup code throws, therefore replaces the value.

Results:
* `liftMethod_returnedValue`: **the value of a return is returned behind the cleanup code, unless another
  return keeps its value on the way.**
-/

namespace Bytelift

open Ir Machine

namespace Ir.Module

/-- A block keeps a value for the return behind cleanup code. -/
def SavesResult (m : Module) (b : BlockId) : Prop :=
  ∃ n : Nat, m.temps[n]? = some Lift.Context.resultName ∧ m.Stores b ⟨.temp, n⟩

/-- A block ends by keeping a value for the return behind cleanup code. -/
def EndsSaving (m : Module) (k : Block) (a : ValueId) : Prop :=
  ∃ (v : ValueId) (j : Inst) (n : Nat), k.insts.back? = some v ∧ m.inst? v = some j ∧ j.op = .storeSlot ∧
    j.slot = ⟨.temp, n⟩ ∧ j.args = [a] ∧ m.temps[n]? = some Lift.Context.resultName

instance (m : Module) (b : BlockId) : Decidable (m.SavesResult b) := inferInstanceAs (Decidable (∃ _, _ ∧ _))

instance (m : Module) (k : Block) (a : ValueId) : Decidable (m.EndsSaving k a) :=
  decidable_of_iff (∃ n : Nat, m.temps[n]? = some Lift.Context.resultName ∧ ∃ v ∈ k.insts.back?, ∃ j ∈ m.inst? v,
    j.op = .storeSlot ∧ j.slot = ⟨.temp, n⟩ ∧ j.args = [a]) <| by
  constructor
  · rintro ⟨n, hn, v, hv, j, hj, hop, hslot, hargs⟩
    exact ⟨v, j, n, hv, hj, hop, hslot, hargs, hn⟩
  · rintro ⟨v, j, n, hv, hj, hop, hslot, hargs, hn⟩
    exact ⟨n, hn, v, hv, j, hj, hop, hslot, hargs⟩

end Ir.Module

namespace Machine

/-- Control runs the cleanup code of regions one after the other. The blocks on the way have a property that may depend on the region
that runs. -/
inductive Journey (call : Caller) (mod : Module) (P : Int → BlockId → Prop) : List Int → Config → Config → Prop
  | done {c} : Journey call mod P [] c c
  | region {h hs c c₁ c'} (hx : Excursion call mod (P h) h c c₁) (hj : Journey call mod P hs c₁ c') :
    Journey call mod P (h :: hs) c c'

end Machine

namespace Lift

variable {cx : Context} {s : State} {m : Module} {call : Caller} {c c' : Config} {n : Nat}

theorem GoodModule.temp_unique (hg : GoodModule cx s) {n' : Nat} {name : Text} (h : s.mod.temps[n]? = some name)
    (h' : s.mod.temps[n']? = some name) : n = n' := by
  rw [← Array.getElem?_toList] at h h'
  obtain ⟨hlt, heq⟩ := List.getElem?_eq_some_iff.1 h
  obtain ⟨hlt', heq'⟩ := List.getElem?_eq_some_iff.1 h'
  exact (hg.temps.getElem_inj_iff).1 (heq.trans heq'.symm)

theorem resultName_ne_selectorName (h : Int) : Context.resultName ≠ selectorName h := by
  intro heq
  have hhead := congrArg List.head? heq
  rw [head?_selectorName, head?_resultName] at hhead
  exact absurd hhead (by decide)

/-- A return that leaves regions keeps its value and goes the way of the regions. -/
theorem Tail.saves {o : Option Int} {i : Instruction} {last : Option ValueId} {t : Terminator} (h : Tail cx s o i last t)
    (hop : i.op.isReturn = true) (hne : exitedRegions s.regions i.bci .ret ≠ []) (hres : cx.result ≠ .void) :
    Saves s last ∧ ∃ x, Passes t x ∧ Route cx s o i.bci .ret x := by
  have refuted {P : Prop} (hfalse : i.op.isReturn = false) : P := by
    rw [hop] at hfalse
    cases hfalse
  cases h with
  | leave hp hop hne hr hsave => exact ⟨hsave hres, _, hp, hr⟩
  | ret hop hnil => exact absurd hnil hne
  | jump hp hgoto => exact refuted (by rcases hgoto with h | h <;> rw [h] <;> rfl)
  | fall hp hfalls =>
    refine refuted ?_
    cases hi : i.op <;> rw [hi] at hfalls <;> first | rfl | cases hfalls
  | branch hc | switch hs hc =>
    refine refuted ?_
    cases hi : i.op <;> rw [hi] at hc <;> first | rfl | cases hc
  | throw h | finish h => exact refuted (by rw [h]; rfl)

namespace Finished

/-- **Control comes through the regions to the destination, and a temporary that is no selector keeps its
value if no block on the way stores into it.** -/
theorem journey (hfin : Finished cx s) (hsize : s.mod.blocks.size ≤ 2 ^ 31) {exit : Exit} {hs : List Int}
    {V : Option Int → Prop} {P : Int → BlockId → Prop} (hP : ∀ h b, P h b → ¬ s.mod.EntersRegion h b) (hr : RouteFrom cx s V exit hs c.block)
    (hj : Journey call s.mod P hs c c') : Arrival cx s.returnBlock exit c'.block ∧ c'.frame.values.size = c.frame.values.size ∧
      ∀ {n : Nat} {name : Text}, s.mod.temps[n]? = some name → (∀ h, name ≠ selectorName h) → (∀ h b, P h b → ¬ s.mod.Stores b ⟨.temp, n⟩) →
        c'.frame.read? ⟨.temp, n⟩ = c.frame.read? ⟨.temp, n⟩ := by
  obtain ⟨D, hg, -⟩ := hfin.good
  induction hj generalizing V with
  | done =>
    refine ⟨?_, rfl, fun _ _ _ => rfl⟩
    cases exit with
    | jump t => exact hr.1
    | ret => exact hr
  | @region h hs c c1 c' hx hj ih =>
    obtain ⟨next, he, hnext⟩ := (hg.leaf hr).resolve_left (by simp)
    have hblock := hfin.excursion hsize he (hP h) hx
    subst hblock
    obtain ⟨harrives, hsize', hread⟩ := ih hnext
    refine ⟨harrives, hsize'.trans hx.size, fun hn hsel hno => (hread hn hsel hno).trans (hx.read? ?_ (hno h))⟩
    exact fun hst => hsel h (he.eq_of_stores hg.toGoodRegions hn hst)

theorem answers (hfin : Finished cx s) (hres : cx.result ≠ .void)
    (hb : s.returnBlock = some c.block) (hvalues : c.frame.values.size = s.mod.insts.size)
    (hn : s.mod.temps[n]? = some Context.resultName) {v : Value} (hv : c.frame.read? ⟨.temp, n⟩ = some v) :
    Answers call s.mod c v := by
  obtain ⟨D, hg, -⟩ := hfin.good
  rcases (hg.returns hb).resolve_left (by simp) with ⟨hvoid, -⟩ | ⟨i, n', -, ⟨k, hk, -, ht, his⟩, hop, hslot, hn'⟩
  · exact absurd hvoid hres
  obtain rfl := hg.toGoodModule.temp_unique hn hn'
  obtain ⟨w, _, hw, ⟨⟩, hids⟩ := List.forall₂_cons_right_iff.1 his
  obtain ⟨-, hpos, hlt⟩ := hfin.id_of_mem hk (by simp [hids]) hw
  have hx : Executes call s.mod k.insts.toList c.frame (c.state.noted k.label) (c.frame.define i v)
      (c.state.noted k.label).counted := by
    rw [hids]
    exact .step hw (run_exec_loadSlot hop (hslot ▸ hv)) .done
  have hval : lookup? (c.frame.define i v).values i.id = some v :=
    Frame.lookup?_define_self hpos (by rw [hvalues]; exact hlt)
  have hret : (execTerm s.mod k (c.frame.define i v)).run (c.state.noted k.label).counted =
      (.ok (.done v), (c.state.noted k.label).counted) := by
    unfold execTerm
    rw [ht]
    dsimp only
    rw [if_neg (fun heq : i.id = noValue => absurd (heq ▸ hpos) (by decide)),
      run_bind_of_ok (Frame.run_value_ok.2 ⟨hval, rfl⟩), run_pure]
  exact ⟨_, (c.state.noted k.label).counted, hk, (execFrom_of_executes hx).trans hret⟩

theorem saved (hfin : Finished cx s) {k : Block} {v a : ValueId} {j : Inst} (hk : s.mod.block? c.block = some k)
    (hback : k.insts.back? = some v) (hj : s.mod.inst? v = some j) (hop : j.op = .storeSlot) (hargs : j.args = [a])
    (hthrow : k.term.isThrow = false) (hs : Step call s.mod c c') :
    c'.block ∈ k.term.ways ∧ ∃ x, lookup? c'.frame.values a = some x ∧ c'.frame.read? j.slot = some x := by
  obtain ⟨D, hg, -⟩ := hfin.good
  have hunwind : k.term.unwind = noBlock := by
    by_contra hne
    obtain ⟨bci, hfault⟩ := (hg.block hk).caught hne
    unfold FaultAt at hfault
    cases ht : k.term with
    | mayUnwind x u =>
      rw [ht] at hfault
      obtain ⟨-, w, i, hw, hi, hmay, -⟩ := hfault
      obtain rfl := Option.mem_unique hback hw
      obtain rfl := Option.mem_unique hj hi
      rw [hop] at hmay
      cases hmay
    | throw x u =>
      rw [ht] at hthrow
      cases hthrow
    | _ =>
      rw [ht] at hfault
      exact hfault
  obtain ⟨hx, -, hway⟩ := hs.completes hk hunwind
  obtain ⟨ids, hids⟩ : ∃ ids, k.insts.toList = ids ++ [v] := List.getLast?_eq_some_iff.1 (by rwa [Array.getLast?_toList])
  rw [hids] at hx
  obtain ⟨f, s1, -, hx2⟩ := executes_append.1 hx
  obtain ⟨i, hi, he⟩ := executes_singleton.1 hx2
  obtain rfl := Option.mem_unique hj hi
  rcases exec_ok he with ⟨-, -, b, x, hb, hval, hwrite⟩ | ⟨hne, -⟩
  · rw [hargs] at hb
    obtain rfl := Option.some.inj hb
    exact ⟨hway, x, by rw [Frame.values_write? hwrite]; exact hval, by rw [Frame.read?_write? hwrite, if_pos rfl]⟩
  · exact absurd hop hne

end Finished

end Lift

/-- **The value of a return is returned behind the cleanup code, unless another return keeps its value on the
way.** A return that leaves regions keeps its value last. Behind the regions, none of which is entered again while it runs, the method
returns a value, and if no block on the way keeps one, the value is that of the return. -/
theorem liftMethod_returnedValue {m : Method} {settings : Settings} {mod : Module} {cx : Lift.Context}
    (h : liftMethod m settings = .ok mod) (hcx : Lift.context m settings = .ok cx) (hsize : mod.blocks.size ≤ 2 ^ 31)
    {call : Caller} {c c₁ : Config} {k : Block} {i : Instruction} (hk : mod.block? c.block = some k)
    (hcode : Lift.holdsCode k.kind = true) (hi : Lift.LastOf cx k.start i) (hlast : ¬ mod.GoesOn k)
    (hret : i.op.isReturn = true) (hres : mod.result ≠ .void) (hleft : Lift.leftHandlers m.exceptions i.bci .ret ≠ [])
    (hvalues : c.frame.values.size = mod.insts.size) (hs : Step call mod c c₁) :
    let left := Lift.leftHandlers m.exceptions i.bci .ret
    ∃ a v, mod.EndsSaving k a ∧ lookup? c₁.frame.values a = some v ∧
      (∀ c', Machine.Journey call mod (fun h b => ¬ mod.EntersRegion h b) left c₁ c' → ∃ w, Machine.Answers call mod c' w) ∧
      ∀ c', Machine.Journey call mod (fun h b => ¬ mod.EntersRegion h b ∧ ¬ mod.SavesResult b) left c₁ c' →
        Machine.Answers call mod c' v := by
  obtain ⟨s, hfin, rfl⟩ := Lift.liftMethod_finished h hcx
  obtain ⟨rfl, -, -⟩ := Lift.context_ok hcx
  obtain ⟨D, hg, -⟩ := hfin.good
  have hregions := Lift.leftHandlers_eq hg.toGoodRegions i.bci .ret
  have hres' : cx.result ≠ .void := by rwa [← hg.toGoodModule.result]
  have hne : k.term ≠ .unreachable := by
    intro hterm
    obtain ⟨k', hk', f, s', ⟨-, ht⟩ | ⟨-, v, -, -, -, -, -, -, -, hu, -, -⟩⟩ := hs.cases
    · obtain rfl := Option.mem_unique hk hk'
      unfold Machine.execTerm at ht
      rw [hterm] at ht
      cases ht
    · obtain rfl := Option.mem_unique hk hk'
      obtain ⟨x, u, hmay, -⟩ := Machine.unwindsAt_iff.1 hu
      rw [hterm] at hmay
      cases hmay
  obtain ⟨o, htail⟩ := hfin.tail_of_block hk hcode hi hlast hne
  obtain ⟨⟨v, a, j, n, hback, hj, hop, hslot, hargs, hn⟩, x, hp, hroute⟩ := htail.saves hret (fun hnil => hleft (by
    rw [← Lift.Context.table, hregions, hnil]; rfl)) hres'
  have hthrow : k.term.isThrow = false := by rcases hp with h | h | ⟨u, h⟩ <;> rw [h] <;> rfl
  obtain ⟨hway, y, hy, hkept⟩ := hfin.saved hk hback hj hop hargs hthrow hs
  rw [hslot] at hkept
  obtain rfl : c₁.block = x := by
    rcases hp with ht | ht | ⟨u, ht⟩ <;> rw [ht] at hway <;> exact List.mem_singleton.1 hway
  rw [Lift.Route, ← hregions] at hroute
  have hvalues₁ := hs.size.trans hvalues
  refine ⟨a, y, ⟨v, j, n, hback, hj, hop, hslot, hargs, hn⟩, hy, fun c' hc' => ?_, fun c' hc' => ?_⟩
  · obtain ⟨harrives, hsame, -⟩ := hfin.journey hsize (fun h b hb => hb) hroute hc'
    exact ⟨_, hfin.answers hres' harrives (hsame.trans hvalues₁) hn (if_pos (Int.natCast_nonneg n))⟩
  · obtain ⟨harrives, hsame, hread⟩ := hfin.journey hsize (fun h b hb => hb.1) hroute hc'
    refine hfin.answers hres' harrives (hsame.trans hvalues₁) hn ((hread hn ?_ ?_).trans hkept)
    · exact Lift.resultName_ne_selectorName
    · exact fun h b hb hst => hb.2 ⟨n, hn, hst⟩

/-- The quotient of seven and two is returned behind the cleanup code at bci 4. -/
theorem guardedQuotient_returnedValue : ∃ mod c k c₁ c' a v, liftMethod guardedQuotient {} = .ok mod ∧
    mod.block? c.block = some k ∧ Step (invokeAt 8) mod c c₁ ∧ mod.EndsSaving k a ∧
    lookup? c₁.frame.values a = some v ∧ Machine.Journey (invokeAt 8) mod
      (fun h b => ¬ mod.EntersRegion h b ∧ ¬ mod.SavesResult b) [4] c₁ c' ∧
    Machine.Answers (invokeAt 8) mod c' v := by
  have hrun : (Lift.lifts guardedQuotient fun mod cx =>
      mod.blocks.size ≤ 2 ^ 31 && mod.result ≠ .void &&
      ((Config.start mod [.ofInt 7, .ofInt 2] { env := Env.new {} }).after? (invokeAt 8) mod (fun _ => True) 2).any
      fun c => (mod.block? c.block).any fun k => Lift.holdsCode k.kind && ¬ mod.GoesOn k &&
      (cx.partition.blocks.any fun B => B.insts.getLast?.any fun i =>
        Lift.LastOf cx k.start i && i.op.isReturn && (i.bci : Int) = 3) &&
      c.frame.values.size = mod.insts.size && (c.next? (invokeAt 8) mod).any fun c₁ =>
      (c₁.next? (invokeAt 8) mod).any fun e =>
        (¬ mod.EntersRegion 4 e.block ∧ ¬ mod.SavesResult e.block) && mod.EndsRegion 4 e.block &&
        (e.next? (invokeAt 8) mod).isSome) = true := by
    decide +kernel
  obtain ⟨mod, cx, hmod, hcx, hrun⟩ := Lift.exists_of_lifts hrun
  simp only [Bool.and_eq_true, decide_eq_true_eq, Option.any_eq_true, List.any_eq_true, Option.isSome_iff_exists] at hrun
  obtain ⟨⟨hsize, hres⟩, c, -, k, hk, ⟨⟨⟨hcode, hlast⟩, B, -, i, -, ⟨hi, hret⟩, hbci⟩, hvalues⟩, c₁, hc₁, e, he, ⟨hP, hend⟩, c', hc'⟩ := hrun
  have hleft : Lift.leftHandlers guardedQuotient.exceptions i.bci .ret = [4] := by
    rw [hbci]
    decide
  have hj : Machine.Journey (invokeAt 8) mod (fun h b => ¬ mod.EntersRegion h b ∧ ¬ mod.SavesResult b) [4] c₁ c' :=
    .region ⟨e, e, step_iff.2 he, .done hP, hend, step_iff.2 hc'⟩ .done
  obtain ⟨a, v, hsave, hv, -, hall⟩ := liftMethod_returnedValue hmod hcx hsize hk hcode hi hlast hret hres
    (by rw [hleft]; simp) hvalues (step_iff.2 hc₁)
  rw [hleft] at hall
  exact ⟨mod, c, k, c₁, c', a, v, hmod, hk, step_iff.2 hc₁, hsave, hv, hj, hall c' hj⟩

/-- Code that returns one in a range with cleanup code. The cleanup code returns two in a range of its own, whose
cleanup code throws, and catches what is thrown. -/
def nestedReturn : Method :=
  { owner := "T", name := "f", desc := "()I", isStatic := true
    maxStack := 1, code := [0x04, 0xac, 0x00, 0x05, 0xac, 0x01, 0xbf, 0x57, 0xcb]
    exceptions := [{ start := 0, stop := 2, handler := 2, isCleanup := true },
      { start := 3, stop := 5, handler := 5, isCleanup := true }, { start := 5, stop := 7, handler := 7 }] }

/-- **A return that is given up replaces the value of a return on its way.** The run below enters no region that
the return leaves a second time, and the method returns two although the return keeps one. -/
theorem nestedReturn_replaced : ∃ mod cx c k i c₁ a c', liftMethod nestedReturn {} = .ok mod ∧
    Lift.context nestedReturn {} = .ok cx ∧
    Path (invokeAt 8) mod (fun _ => True) (.start mod [] { env := Env.new {} }) c ∧
    mod.block? c.block = some k ∧ Lift.LastOf cx k.start i ∧ i.op.isReturn = true ∧
    Lift.leftHandlers nestedReturn.exceptions i.bci .ret = [2] ∧ Step (invokeAt 8) mod c c₁ ∧ mod.EndsSaving k a ∧
    lookup? c₁.frame.values a = some (.ofInt 1) ∧
    Machine.Journey (invokeAt 8) mod (fun h b => ¬ mod.EntersRegion h b) [2] c₁ c' ∧
    Machine.Answers (invokeAt 8) mod c' (.ofInt 2) := by
  have hrun : (Lift.lifts nestedReturn fun mod cx =>
      ((Config.start mod [] { env := Env.new {} }).after? (invokeAt 8) mod (fun _ => True) 1).any fun c =>
      (mod.block? c.block).any fun k => (cx.partition.blocks.any fun B => B.insts.getLast?.any fun i =>
        Lift.LastOf cx k.start i && i.op.isReturn && (i.bci : Int) = 1) &&
      (c.next? (invokeAt 8) mod).any fun c₁ => mod.EndsSaving k 0 && lookup? c₁.frame.values 0 = some (.ofInt 1) &&
      (c₁.next? (invokeAt 8) mod).any fun c₂ =>
      (c₂.after? (invokeAt 8) mod (fun b => ¬ mod.EntersRegion 2 b) 6).any fun e =>
        mod.EndsRegion 2 e.block && (e.next? (invokeAt 8) mod).any fun c' =>
          c'.answer? (invokeAt 8) mod = some (.ofInt 2)) = true := by
    decide +kernel
  obtain ⟨mod, cx, hmod, hcx, hrun⟩ := Lift.exists_of_lifts hrun
  simp only [Bool.and_eq_true, decide_eq_true_eq, Option.any_eq_true, List.any_eq_true] at hrun
  obtain ⟨c, hc, k, hk, ⟨B, -, i, -, ⟨hi, hret⟩, hbci⟩, c₁, hc₁, ⟨hsave, hv⟩, c₂, hc₂, e, he, hend, c', hc', hanswer⟩ := hrun
  have hleft : Lift.leftHandlers nestedReturn.exceptions i.bci .ret = [2] := by
    rw [hbci]
    decide
  exact ⟨mod, cx, c, k, i, c₁, 0, c', hmod, hcx, Machine.path_of_after? hc, hk, hi, hret, hleft, step_iff.2 hc₁, hsave, hv,
    .region ⟨c₂, e, step_iff.2 hc₂, Machine.path_of_after? he, hend, step_iff.2 hc'⟩ .done,
    Machine.answers_iff.2 hanswer⟩

end Bytelift
