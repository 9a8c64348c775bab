import Bytelift.Proofs.Simulation.Steps

/-!
# Lifting calls

A static or special call goes to the method that it names. A virtual or interface call first reads the class of the
receiver and looks the method up there. The code of a call takes the arguments and the receiver from the operand
stack, comes to a call instruction with nothing else changed, and leaves the result on the stack.

Main definition:
* `MakesCall`: a run comes to a call instruction that calls a method with given arguments.

Result:
* `Ready.liftsCall`: **the code of a call makes the call**, or it stops as the lookup stops.
-/

namespace Bytelift.Lift

open Ir List Machine

variable {cx : Context} {B : CodeBlock} {O : Rest} {s s' : State} {w : Walk} {f : Frame} {κ : Machine.State}
  {d : Dispatch} {ref : MethodRef} {v : ValueId}

/-- The symbol that a call on a receiver goes to. -/
def callee (d : Dispatch) (ref : MethodRef) (r : Value) : RunM Text :=
  if d.isBound then pure ref.key
  else do
    let cls ← Machine.classOf r
    Machine.lookupMethod (d = .interface) ref.key cls

/-- The values in which a call finds the symbol that was looked up. -/
def Found (d : Dispatch) (ref : MethodRef) (s : State) (f : Frame) (slot : List ValueId) (key : Text) : Prop :=
  if d.isBound then slot = [] ∧ key = ref.key else ∃ v y, slot = [v] ∧ Has s f v y ∧ y.sym = key

/-- The operand stack behind a call: the result, if there is one, is on top. -/
def leaves (type : MethodType) (below : List Value) (v : Value) : List Value :=
  if type.result.kind = .void then below else v :: below

/-- A run comes to a call instruction at a bci, in a state that is `σ` but for the meters. The instruction calls the
method under a symbol with the given arguments. Behind it the run stands at the cursor with the given values on the
operand stack, and the local variables are those of `f`. -/
def MakesCall (call : Caller) (mod : Module) (start : Config) (bci : Int) (s' : State) (f : Frame) (σ : Machine.State)
    (key : Text) (args : List Value) (left : Value → List Value) : Prop :=
  ∃ j f₁ σ₁, ComesTo call mod start j f₁ σ₁ ∧ j.op = .call ∧ j.bci = bci ∧ σ₁.bare = σ.bare ∧
    Machine.execCall call f₁ j = call key args ∧
    ∀ v σ₂, (call key args).run σ₁.counted = (.ok v, σ₂) → ∃ f₂, Reaches call mod start s' f₂ σ₂ ∧ Holds s' f₂ (left v) ∧
      ∀ n : Nat, f₂.read? ⟨.local, n⟩ = f.read? ⟨.local, n⟩

theorem MakesCall.congr {call : Caller} {mod : Module} {start : Config} {bci : Int} {f' : Frame} {σ σ' : Machine.State}
    {key : Text} {args : List Value} {left : Value → List Value} (h : MakesCall call mod start bci s' f σ key args left)
    (hf : ∀ n : Nat, f.read? ⟨.local, n⟩ = f'.read? ⟨.local, n⟩) (hσ : σ.bare = σ'.bare) :
    MakesCall call mod start bci s' f' σ' key args left := by
  obtain ⟨j, f1, σ1, hcomes, hop, hbci, hσ1, hexec, hnext⟩ := h
  refine ⟨j, f1, σ1, hcomes, hop, hbci, hσ1.trans hσ, hexec, fun v σ2 hrun => ?_⟩
  obtain ⟨f2, hreach, hx, hlocals⟩ := hnext v σ2 hrun
  exact ⟨f2, hreach, hx, fun n => (hlocals n).trans (hf n)⟩

/-! ## Looking the callee up -/

/-- **The code looks the callee up on the class of the receiver.** -/
theorem Working.looksUp (h : Working cx B O s) (d : Dispatch) (ref : MethodRef) (hv : s.mod.Use s.cursor.block v .ref) :
    Wp (cx.lookup d ref v) s fun slot s' => Appends cx B O s s' ∧ (∀ u ∈ slot, ∃ ty, s'.mod.Use s'.cursor.block u ty) ∧
      ∀ w f κ r, s'.mod.Grows w.mod → At w s f κ → Has s f v r →
        Does w s.cursor.bci κ (callee d ref r) s' fun key f' => Retains s s' f f' ∧ Found d ref s' f' slot key := by
  unfold Context.lookup callee Found
  cases hd : d.isBound with
  | true =>
    simp only [if_true]
    exact ⟨h.appends, by simp, fun w f κ r _ hat _ => .pure hat ⟨.of_grows (.refl _), rfl, rfl⟩⟩
  | false =>
    simp only [Bool.false_eq_true, if_false]
    refine (h.emits (.unary rfl (by simp) hv)).bind fun klass s1 ⟨he1, _⟩ => ?_
    obtain ⟨op, hop, hkind⟩ : ∃ op : Op, (if d = .interface then Op.lookupInterface else .lookupVirtual) = op ∧
        (op = .lookupVirtual ∨ op = .lookupInterface) ∧ decide (op = .lookupInterface) = decide (d = .interface) := by
      by_cases hi : d = .interface <;> simp [hi]
    rw [hop]
    have hplain : (op ≠ .landingpad ∧ IsPlain op) ∧ op ≠ .call := by rcases hkind.1 with rfl | rfl <;> simp
    refine (he1.working.emits (.unary rfl hplain.1 he1.use)).bind fun u s2 ⟨he2, _⟩ => ?_
    refine ⟨he1.toAppends.trans he2.toAppends, fun x hx => ⟨_, mem_singleton.1 hx ▸ he2.use⟩, fun w f κ r hM hat hr => ?_⟩
    have hclass := he1.defines (he2.grows.trans hM) hat (by simp) (defines_loadKlass rfl (hr.operand rfl))
    refine hclass.of_map.bind fun cls f1 κ1 hat1 ⟨hr1, hk1⟩ => ?_
    have hfind := he2.defines hM hat1 hplain.2 (defines_lookup (i := placed _ s1 s2 u) hkind.1 (hk1.operand rfl))
    rw [he1.proceeds.bci] at hfind
    change Does w s.cursor.bci κ1 (lookupMethod (decide (op = .lookupInterface)) ref.key cls >>= _) s2 _ at hfind
    rw [hkind.2] at hfind
    exact hfind.of_map.mono fun key f2 ⟨hr2, hu⟩ => ⟨hr1.trans hr2, u, _, rfl, hu, rfl⟩

/-- The code takes the receiver from the stack and looks the callee up. -/
theorem Ready.receives (h : Ready cx B O s) (hd : d ≠ .static) (ref : MethodRef) :
    Wp (cx.receiver d ref) s fun p s' => Advances cx B O s s' ∧ (∀ u ∈ p.2 ++ p.1, ∃ ty, s'.mod.Use s'.cursor.block u ty) ∧
      ∃ v rest, s.cursor.stack = ⟨v, .ref⟩ :: rest ∧ s'.cursor.stack = rest ∧ p.1 = [v] ∧
        ∀ w f κ r, s'.mod.Grows w.mod → At w s f κ → Has s f v r → r.ref.isSome = true →
          Does w s.cursor.bci κ (callee d ref r) s' fun key f' => Retains s s' f f' ∧ Found d ref s' f' p.2 key := by
  unfold Context.receiver
  rw [if_neg hd]
  refine (h.popTy .ref).bind fun v s1 ⟨ha1, hv1, rest, hst, hs1⟩ => ?_
  subst hs1
  refine (ha1.ready.passesNull hv1).bind fun _ s2 ⟨ha2, hd2⟩ => ?_
  have hv2 := ha2.proceeds.use hv1
  refine (ha2.working.looksUp d ref hv2).bind fun slot s3 ⟨ha3, huse, hd3⟩ => ?_
  have ha := ha1.trans (ha1.ready.advance (ha2.trans ha3))
  refine ⟨ha, fun u hu => ?_, v, rest, hst, ha3.stack.trans ha2.stack, rfl, fun w f κ r hM hat hr hnull => ?_⟩
  · rcases mem_append.1 hu with hu | hu
    · exact huse u hu
    · exact ⟨_, mem_singleton.1 hu ▸ ha3.proceeds.use hv2⟩
  obtain ⟨f2, hat2, hr2⟩ := hd2 w f κ r (ha3.grows.trans hM) (hat.withStack rest) hr hnull
  have hfind := hd3 w f2 κ r hM hat2 (hr2.has hr)
  rw [ha2.proceeds.bci] at hfind
  refine hfind.mono fun key f3 ⟨hr3, hfound⟩ => ⟨?_, hfound⟩
  exact ⟨fun hx => hr3.has (hr2.has hx), fun slot => (hr3.slots slot).trans (hr2.slots slot)⟩

/-! ## Calling -/

theorem ofKind_eq_void {k : Kind} : Ty.ofKind k = .void ↔ k = .void := by cases k <;> simp [Ty.ofKind]

/-- A call instruction is appended, and its result is pushed. -/
theorem Ready.emitsCall (h : Ready cx B O s) (type : MethodType) {site : CallSite} {sym : Text} {args : List ValueId}
    (huse : ∀ a ∈ args, ∃ ty, s.mod.Use s.cursor.block a ty) :
    Wp (do
      let v ← cx.emit { op := .call, ty := Ty.ofKind type.result.kind, sym := sym, args := args, call := some site }
      if Ty.ofKind type.result.kind ≠ .void then Context.push v (Ty.ofKind type.result.kind) else pure ()) s fun _ s' =>
      Advances cx B O s s' ∧ ∀ w f κ key xs below, s'.mod.Grows w.mod → At w s f κ → Holds s f below →
        (∀ j : Inst, j.call = some site → j.sym = sym → execCall w.call f j = w.call key xs) →
        MakesCall w.call w.mod w.start s.cursor.bci s' f κ key xs (leaves type below) := by
  let i : Inst := { op := .call, ty := Ty.ofKind type.result.kind, sym := sym, args := args, call := some site }
  refine (h.emits (i := i) (.of_uses huse (by simp [i]))).bind fun v s1 ⟨he, _⟩ => ?_
  have ha := h.advance he.toAppends
  -- what the call instruction does to the frame
  have hcall {w : Walk} {f : Frame} {κ : Machine.State} {key : Text} {xs : List Value} (hM : s1.mod.Grows w.mod)
      (hat : At w s f κ)
      (hexec : ∀ j : Inst, j.call = some site → j.sym = sym → execCall w.call f j = w.call key xs) :
      ∃ j σ1, ComesTo w.call w.mod w.start j f σ1 ∧ j.op = .call ∧ j.bci = s.cursor.bci ∧ σ1.bare = κ ∧
        execCall w.call f j = w.call key xs ∧
        ∀ x σ2, (w.call key xs).run σ1.counted = (.ok x, σ2) → ∃ f2, Reaches w.call w.mod w.start s1 f2 σ2 ∧
          Retains s s1 f f2 ∧ (type.result.kind ≠ .void → Has s1 f2 v x) := by
    obtain ⟨σ, hcomes, hσ, hnext⟩ := he.comes hM hat
    have hx := hexec (placed i s s1 v) rfl rfl
    refine ⟨_, σ, hcomes, rfl, rfl, hσ, hx, fun x σ2 hrun => ?_⟩
    have hstep : (exec w.call w.mod (placed i s s1 v) f).run σ.counted =
        (.ok (if type.result.kind = .void then f else f.define (placed i s s1 v) x), σ2) := by
      have hresult : (placed i s s1 v).hasResult = decide (type.result.kind ≠ .void) :=
        decide_eq_decide.2 (not_congr ofKind_eq_void)
      rw [exec_call rfl, hx, run_bind_of_ok hrun, hresult]
      by_cases hvoid : type.result.kind = .void <;> simp [hvoid, run_pure]
    refine ⟨_, hnext _ _ hstep, ?_⟩
    by_cases hvoid : type.result.kind = .void
    · rw [if_pos hvoid]
      exact ⟨.of_grows he.grows, absurd hvoid⟩
    · rw [if_neg hvoid]
      have hr := he.retains hM hat x
      exact ⟨hr.1, fun _ => hr.2⟩
  split
  · rename_i hvoid
    have hvoid : type.result.kind ≠ .void := fun hv => hvoid (ofKind_eq_void.2 hv)
    refine (ha.ready.pushes he.use).mono fun _ s2 ⟨ha2, hs2⟩ => ⟨ha.trans ha2, fun w f κ key xs below hM hat hx hexec => ?_⟩
    subst hs2
    obtain ⟨j, σ1, hcomes, hop, hbci, hσ, hj, hnext⟩ := hcall hM hat hexec
    refine ⟨j, f, σ1, hcomes, hop, hbci, by rw [hσ, hat.bare], hj, fun x σ2 hrun => ?_⟩
    obtain ⟨f2, hreach, hr, hv⟩ := hnext x σ2 hrun
    refine ⟨f2, hreach, ?_, fun n => hr.slots _⟩
    rw [leaves, if_neg hvoid]
    exact (hr.holds he.stack hx).push (hv hvoid)
  · rename_i hvoid
    have hvoid : type.result.kind = .void := ofKind_eq_void.1 (not_not.1 hvoid)
    refine ⟨ha, fun w f κ key xs below hM hat hx hexec => ?_⟩
    obtain ⟨j, σ1, hcomes, hop, hbci, hσ, hj, hnext⟩ := hcall hM hat hexec
    refine ⟨j, f, σ1, hcomes, hop, hbci, by rw [hσ, hat.bare], hj, fun x σ2 hrun => ?_⟩
    obtain ⟨f2, hreach, hr, -⟩ := hnext x σ2 hrun
    refine ⟨f2, hreach, ?_, fun n => hr.slots _⟩
    rw [leaves, if_pos hvoid]
    exact hr.holds he.stack hx

theorem Has.ne_noValue {x : Value} (h : Has s f v x) : v ≠ noValue := by
  rintro rfl
  obtain ⟨⟨i, hi⟩, -⟩ := h
  exact absurd (Module.inst?_lt hi).1 (by decide)

theorem receiverOf_eq {x : Value} {c : CallSite} (h : Has s f v x) (hc : c.receiver = v) : receiverOf f c = pure [x] := by
  unfold receiverOf
  rw [hc, if_neg h.ne_noValue, Frame.value_eq h.2, pure_bind]

/-- **The code of a call makes the call, or it stops as the lookup stops.** -/
theorem Ready.liftsCall (h : Ready cx B O s) (i : Instruction) (d : Dispatch) (ref : MethodRef) :
    Wp (cx.liftCall i d ref) s fun _ s' => Advances cx B O s s' ∧ ∃ type, MethodType.parse ref.desc = .ok type ∧
      ∀ w f κ xs below, s'.mod.Grows w.mod → At w s f κ → xs.length = type.params.length →
        (d = .static → Holds s f (xs.reverse ++ below) →
          MakesCall w.call w.mod w.start s.cursor.bci s' f κ ref.key xs (leaves type below)) ∧
        (d ≠ .static → ∀ r, r.ref.isSome = true → Holds s f (xs.reverse ++ r :: below) → ∀ τ : Machine.State, τ.bare = κ →
          match (callee d ref r).run τ with
          | (.ok key, τ') => MakesCall w.call w.mod w.start s.cursor.bci s' f τ' key (r :: xs) (leaves type below)
          | (.error e, τ') => Stops w s.cursor.bci e τ'.bare) := by
  unfold Context.liftCall Context.calleeType
  cases htype : MethodType.parse ref.desc with
  | error e => exact wp_bind.2 (wp_failAt trivial)
  | ok type =>
    refine wp_bind.2 (wp_bind.2 (wp_refuseIf trivial fun _ => ?_))
    refine (h.popsAll _).bind fun args s1 ⟨ha1, popped, rest, hst, hs1, hargs, hty⟩ => ?_
    subst hs1 hargs
    have hlen : popped.length = type.params.length := by
      have := congrArg List.length hty
      simpa using this
    have hpopped : ∀ a ∈ popped.map (·.id), ∃ ty, (s.withStack rest).mod.Use s.cursor.block a ty := fun a ha => by
      obtain ⟨e, he, rfl⟩ := mem_map.1 ha
      exact ⟨e.ty, h.stack e (hst ▸ mem_append_left _ (mem_reverse.2 he))⟩
    by_cases hd : d = .static
    · -- a static call has no receiver
      subst hd
      have hreceiver : cx.receiver .static ref = pure ([], []) := if_pos rfl
      rw [hreceiver, pure_bind]
      refine (ha1.ready.emitsCall type fun a ha => ?_).mono fun _ s2 ⟨ha2, hd2⟩ =>
        ⟨ha1.trans ha2, type, rfl, fun w f κ xs below hM hat hxs => ?_⟩
      · exact hpopped a (by simpa using ha)
      refine ⟨fun _ hx => ?_, absurd rfl⟩
      obtain ⟨htop, hbelow⟩ := hx.split hst (hxs.trans hlen.symm)
      refine hd2 w f κ ref.key xs below hM (hat.withStack rest) hbelow fun j hj hsym => ?_
      rw [← hsym]
      refine execCall_eq hj (if_pos rfl) (show receiverOf f _ = pure [] from rfl) ?_
      rw [forall₂_map_left_iff]
      exact htop.imp fun _ _ hx => hx.2
    · refine (ha1.ready.receives hd ref).bind fun p s2 ⟨ha2, huse, v, rest', hst2, hrest', hp, hd2⟩ => ?_
      obtain ⟨receiver, slot⟩ := p
      obtain rfl : receiver = [v] := hp
      refine (ha2.ready.emitsCall type fun a ha => ?_).mono fun _ s3 ⟨ha3, hd3⟩ =>
        ⟨(ha1.trans ha2).trans ha3, type, rfl, fun w f κ xs below hM hat hxs => ?_⟩
      · rcases mem_append.1 ha with ha | ha
        · exact huse a ha
        · obtain ⟨ty, hu⟩ := hpopped a ha
          exact ⟨ty, ha2.proceeds.use hu⟩
      refine ⟨fun heq => absurd heq hd, fun _ r hr hx τ hτ => ?_⟩
      obtain ⟨htop, hbelow⟩ := hx.split hst (hxs.trans hlen.symm)
      unfold Holds at hbelow
      rw [hst2] at hbelow
      obtain ⟨hv, hbelow⟩ := forall₂_cons.1 hbelow
      have hfind := hd2 w f κ r (ha3.grows.trans hM) (hat.withStack rest) hv hr τ hτ
      rcases hrun : (callee d ref r).run τ with ⟨e | key, τ'⟩ <;> rw [hrun] at hfind
      · exact hfind
      obtain ⟨f2, hat2, hr2, hfound⟩ := hfind
      have hholds : Holds s2 f2 below := by
        unfold Holds
        rw [hrest']
        exact hbelow.imp fun _ _ hx => hr2.has hx
      have hbci : s.cursor.bci = s2.cursor.bci := (ha1.trans ha2).proceeds.bci.symm
      rw [hbci]
      refine (hd3 w f2 τ'.bare key (r :: xs) below hM hat2 hholds fun j hj hsym => ?_).congr (fun n => hr2.slots _)
        (Machine.State.bare_bare τ')
      have hreceiver : ∀ c : CallSite, c.receiver = v → receiverOf f2 c = pure [r] :=
        fun c hc => receiverOf_eq (hr2.has hv) hc
      have htop2 : Forall₂ (fun a x => lookup? f2.values a = some x) (popped.map (·.id)) xs := by
        rw [forall₂_map_left_iff]
        exact htop.imp fun _ _ hx => (hr2.has hx).2
      unfold Found at hfound
      split at hfound
      · rename_i hb
        obtain ⟨rfl, rfl⟩ := hfound
        rw [← hsym]
        exact execCall_eq hj (if_pos hb) (hreceiver _ rfl) htop2
      · rename_i hb
        obtain ⟨u, y, rfl, hy, rfl⟩ := hfound
        exact execCall_eq hj (calleeOf_looked (by simpa using hb) hy.2) (hreceiver _ rfl) htop2

end Bytelift.Lift
