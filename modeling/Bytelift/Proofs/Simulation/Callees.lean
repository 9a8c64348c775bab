import Bytelift.Proofs.Machine.Resolution
import Bytelift.Proofs.Simulation.Code

/-!
# Calls in lifted modules

The code of a call is known from the lifting. What a virtual or an interface call denotes depends on the class of the
receiver: it is the method of the first class on the chain of superclasses that has one.

Results:
* `run_callee`: the callee that is looked up on a receiver;
* `liftMethod_calls`: in a lifted module, the calls of scheduled blocks go to the methods that they denote.
-/

namespace Bytelift.Lift

open Ir Machine

variable {cx : Context} {s s' : State} {d : Dispatch} {ref : MethodRef}

/-- An invocation that is lifted is a call of a method of the pool. -/
theorem lift_invoke {i : Instruction} {op : InvokeOp} (hop : i.op = .invoke op) (h : (cx.lift i).run s = (.ok (), s')) :
    ∃ d ref, dispatch? op = some d ∧ cx.method.pool.getMethod i.poolIndex = .ok ref ∧ cx.lift i = cx.liftCall i d ref := by
  have hlift : cx.lift i = cx.liftInvoke i op := by
    unfold Context.lift
    rw [hop]
  rw [hlift] at h ⊢
  unfold Context.liftInvoke at h ⊢
  cases hd : dispatch? op with
  | none =>
    rw [hd] at h
    cases h
  | some d =>
    rw [hd] at h
    cases href : cx.method.pool.getMethod i.poolIndex with
    | error e =>
      rw [href] at h
      cases h
    | ok ref => exact ⟨d, ref, rfl, rfl, rfl⟩

/-! ## The callee of a receiver -/

section Callee

variable {r : Value} {p : Machine.Ref} {o : Machine.Object} {τ : Machine.State}

theorem run_classOf (hr : r.ref = some p) (ho : τ.heap[p]? = some o) : (Machine.classOf r).run τ = (.ok o.cls, τ) :=
  run_bind_of_ok (run_object hr ho)

/-- The callee that a lookup on a receiver gives is the method that the reference denotes for the class of the receiver. -/
theorem run_callee (hd : d = .virtual ∨ d = .interface) (hr : r.ref = some p) (ho : τ.heap[p]? = some o)
    (hdot : Text.byte '.' ∉ ref.owner) (hac : τ.env.classes.Acyclic) :
    (∀ D, τ.env.Selects o.cls ref D → (callee d ref r).run τ = (.ok (methodKey D ref.name ref.desc), τ)) ∧
    ((∀ D, ¬ τ.env.Selects o.cls ref D) → (callee d ref r).run τ =
      (throwNew (missingClass τ.env (d = .interface) ref.owner o.cls)).run τ) := by
  have hbound : d.isBound = false := by rcases hd with rfl | rfl <;> rfl
  unfold callee
  rw [hbound, if_neg (by simp), run_bind_of_ok (run_classOf hr ho)]
  exact run_lookupMethod hdot hac (d = .interface) o.cls

end Callee

end Bytelift.Lift

namespace Bytelift

open Ir
open Machine (invokeAt)
open Text (ofString)
open Lift (CodeFor Reaches Holds MakesCall Raises leaves)

/-- **In a lifted module, calls go to the methods that they denote.** A static or special call goes to
the method of its owner. A virtual or interface call goes to the method of the first class on the
chain of the receiver's class that has one, or it raises an error if there is none; the owner has no
dot in its name. An interface call without a method asks whether the class inherits from the owner,
which has an answer if no class inherits from itself. -/
theorem liftMethod_calls {m : Method} {settings : Settings} {mod : Module} {cx : Lift.Context}
    (h : liftMethod m settings = .ok mod) (hcx : Lift.context m settings = .ok cx) :
    ∃ S, cx.build.run { builder := Builder.new m.key } = (.ok (), S) ∧
    ∀ B ∈ cx.partition.blocks, Lift.Scheduled S B.start → ∀ i ∈ B.insts, ∀ op, i.op = .invoke op →
    ∃ d ref type, Lift.dispatch? op = some d ∧ m.pool.getMethod i.poolIndex = .ok ref ∧ MethodType.parse ref.desc = .ok type ∧
    (∃ s s', CodeFor cx mod i s s') ∧
    ∀ s s', CodeFor cx mod i s s' → ∀ call args st f σ, Reaches call mod (.start mod args st) s f σ →
    ∀ xs below, xs.length = type.params.length →
      (d = .static → Holds s f (xs.reverse ++ below) →
        MakesCall call mod (.start mod args st) i.bci s' f σ ref.key xs (leaves type below)) ∧
      ∀ r p, r.ref = some p → Holds s f (xs.reverse ++ r :: below) →
        (d = .special → MakesCall call mod (.start mod args st) i.bci s' f σ ref.key (r :: xs) (leaves type below)) ∧
        (d = .virtual ∨ d = .interface → Text.byte '.' ∉ ref.owner → σ.env.classes.Acyclic → ∀ o, σ.heap[p]? = some o →
          (∀ D, σ.env.Selects o.cls ref D → MakesCall call mod (.start mod args st) i.bci s' f σ
            (methodKey D ref.name ref.desc) (r :: xs) (leaves type below)) ∧
          ((∀ D, ¬ σ.env.Selects o.cls ref D) →
            (d = .interface → ∀ a, ¬ Relation.TransGen σ.env.classes.Inherits a a) →
            Raises call mod (.start mod args st) i.bci σ
              (Machine.missingClass σ.env (d = .interface) ref.owner o.cls))) := by
  obtain ⟨rfl, -, -⟩ := Lift.context_ok hcx
  obtain ⟨S, hbuild, -, hfin, hl, -⟩ := Lift.liftMethod_ends h hcx
  refine ⟨S, hbuild, fun B hB hs i hi op hop => ?_⟩
  obtain ⟨s₀, s₀', hcode₀⟩ := (hfin.link hl).exists_codeFor hB hs hi
  obtain ⟨d, ref, hd, href, hlift⟩ := Lift.lift_invoke hop hcode₀.run
  obtain ⟨B₀, O₀, hready₀⟩ := hcode₀.ready
  obtain ⟨-, type, htype, -⟩ := (hready₀.liftsCall i d ref).of_run (hlift ▸ hcode₀.run)
  refine ⟨d, ref, type, hd, href, htype, ⟨s₀, s₀', hcode₀⟩, fun s s' hcode call args st f σ hreach xs below hxs => ?_⟩
  obtain ⟨B', O', hready⟩ := hcode.ready
  obtain ⟨-, type', htype', hdoes⟩ := (hready.liftsCall i d ref).of_run (hlift ▸ hcode.run)
  obtain rfl := Except.ok.inj (htype.symm.trans htype')
  obtain ⟨hstatic, hother⟩ := hdoes ((hfin.link hl).walk call args st) f σ.bare xs below hcode.grows ⟨σ, hreach, rfl⟩ hxs
  rw [hcode.bci] at hstatic hother
  refine ⟨fun hst hx => (hstatic hst hx).congr (fun _ => rfl) (by simp), fun r p hr hx => ⟨fun hsp => ?_, fun hdyn hdot hac o ho => ?_⟩⟩
  · have hcall := hother (by simp [hsp]) r (by simp [hr]) hx σ rfl
    rwa [Lift.callee, if_pos (by rw [hsp]; rfl)] at hcall
  · have hne : d ≠ .static := by rcases hdyn with rfl | rfl <;> simp
    have hcall := hother hne r (by simp [hr]) hx σ rfl
    obtain ⟨hfound, hmissing⟩ := Lift.run_callee hdyn hr ho hdot hac
    refine ⟨fun D hD => ?_, fun hno _ => ?_⟩
    · rwa [hfound D hD] at hcall
    · rwa [hmissing hno] at hcall

/-! ## A method that is inherited -/

/-- The method `f` of the class `A`, which the class `B` inherits. -/
def inheritedMethod : Method :=
  { owner := "A", name := "f", desc := "(I)I", maxLocals := 2, code := [0x1b, 0xac] }

/-- A call of the method `f` on a value of the class `B` with a number. -/
def inheritedCall : Method :=
  { owner := "T", name := "g", desc := "(LB;I)I", isStatic := true
    maxLocals := 2, code := [0x2a, 0x1b, 0xb6, 0, 1, 0xac]
    pool := { entries := #[.method ⟨ofString "B", ofString "f", ofString "(I)I", false⟩] } }

/-- A state with an object of the class `B`. -/
def inheritedState : Machine.State :=
  { env := (((Machine.Env.new {}).addClass { name := "A" }).addClass
      { name := "B", super := "A" }).addMethod inheritedMethod
    heap := #[{ cls := "B" }] }

/-- The call goes to the method that the class of the receiver inherits. -/
theorem inheritedCall_made : ∃ mod j f σ, liftMethod inheritedCall {} = .ok mod ∧
    Machine.ComesTo (invokeAt 8) mod (.start mod [{ ref := some 0 }, .ofInt 5] inheritedState) j f σ ∧ j.op = .call ∧ j.bci = 2 ∧
    Machine.execCall (invokeAt 8) f j = invokeAt 8 (ofString "A.f:(I)I") [{ ref := some 0 }, .ofInt 5] := by
  have hrun : (Lift.lifts inheritedCall fun mod cx =>
      (cx.partition.blocks.any fun B => B.start = 0 && B.insts = [⟨0, .loadAt .ref 0, 1, .none, false⟩,
        ⟨1, .loadAt .int 1, 1, .none, false⟩, ⟨2, .invoke .virtual, 3, .pool 1, false⟩, ⟨5, .valueReturn .int, 1, .none, false⟩]) &&
      ((Machine.Config.start mod [{ ref := some 0 }, .ofInt 5] inheritedState).after? (invokeAt 8) mod (fun _ => True) 1).any
        fun c => c.block = cx.blockOf 0 && c.frame.read? ⟨.local, 0⟩ = some { ref := some 0 } &&
          c.frame.read? ⟨.local, 1⟩ = some (.ofInt 5) && c.state.heap = inheritedState.heap && c.state.env = inheritedState.env) = true := by
    decide +kernel
  obtain ⟨mod, cx, hmod, hcx, hrun⟩ := Lift.exists_of_lifts hrun
  simp only [Bool.and_eq_true, decide_eq_true_eq, Option.any_eq_true, List.any_eq_true] at hrun
  obtain ⟨⟨B, hB, hstart, hinsts⟩, c, hc, ⟨⟨⟨hblock, hx⟩, hy⟩, hheap⟩, henv⟩ := hrun
  obtain ⟨S, hbuild, hall⟩ := liftMethod_calls hmod hcx
  obtain ⟨S', hbuild', -, hfin, hl, -⟩ := Lift.liftMethod_ends hmod hcx
  obtain rfl : S' = S := (Prod.mk.inj (hbuild'.symm.trans hbuild)).2
  have hfirst : Lift.Entered S' B.start [] := by
    rw [hstart]
    exact hfin.first
  obtain ⟨s, s', hcode, hreach⟩ := (hfin.link hl).reaches hB hfirst (show B.insts = [_, _] ++ _ from hinsts) fun j hj => by
    rcases List.mem_pair.1 hj with rfl | rfl
    · exact ⟨.ref, rfl⟩
    · exact ⟨.int, rfl⟩
  obtain ⟨f, σ, hσ, hbare, hholds⟩ := hreach (invokeAt 8) _ inheritedState c [{ ref := some 0 }, .ofInt 5]
    (Machine.path_of_after? hc) (by rw [hblock, hstart]; rfl) (.cons hx (.cons hy .nil))
  have hi : ⟨2, .invoke .virtual, 3, .pool 1, false⟩ ∈ B.insts := by simp [hinsts]
  obtain ⟨d, ref, type, hd, href, htype, -, hcalls⟩ := hall B hB hfirst.scheduled _ hi .virtual rfl
  obtain rfl : .virtual = d := Option.some.inj hd
  obtain rfl : ⟨ofString "B", ofString "f", ofString "(I)I", false⟩ = ref := Except.ok.inj href
  have hparams : type.params.length = 1 := by
    have hlen : (MethodType.parse (ofString "(I)I")).toOption.map (·.params.length) = some 1 := by decide +kernel
    rw [htype] at hlen
    exact Option.some.inj hlen
  have hσheap : σ.heap = inheritedState.heap := (congrArg (·.heap) hbare).trans hheap
  have hσenv : σ.env = inheritedState.env := (congrArg (·.env) hbare).trans henv
  have hac : σ.env.classes.Acyclic := by
    rw [hσenv]
    exact Machine.Hierarchy.acyclic_of_rank (fun c => (inheritedState.env.classes.chain c).length) (by decide +kernel)
  have hchain : σ.env.classes.chain (ofString "B") = [ofString "B"] ++ ofString "A" :: [Machine.rootClass] := by
    rw [hσenv]
    decide +kernel
  have hselects : σ.env.Selects (ofString "B") ⟨ofString "B", ofString "f", ofString "(I)I", false⟩
      (ofString "A") := by
    refine ⟨_, _, hchain ▸ Machine.Hierarchy.superChain_chain hac _, ?_, fun E hE => ?_⟩
    · rw [hσenv]
      decide +kernel
    · rw [hσenv, List.mem_singleton.1 hE]
      decide +kernel
  obtain ⟨-, hother⟩ := hcalls s s' hcode _ _ _ f σ hσ [.ofInt 5] [] hparams.symm
  obtain ⟨-, hdyn⟩ := hother { ref := some 0 } 0 rfl hholds
  obtain ⟨hcall, -⟩ := hdyn (.inl rfl) (by decide) hac { cls := "B" } (by rw [hσheap]; rfl)
  obtain ⟨j, f₁, σ₁, hcomes, hop, hbci, -, hexec, -⟩ := hcall _ hselects
  exact ⟨mod, j, f₁, σ₁, hmod, hcomes, hop, hbci, hexec⟩

/-! ## An owner with a dot -/

/-- The method `f` of the class `a.B`. -/
def dottedMethod : Method :=
  { owner := "a.B", name := "f", desc := "()I", maxLocals := 1, code := [0x08, 0xac] }

/-- A call of the method `f` of the class `a.B`. -/
def dottedCall : Method :=
  { owner := "T", name := "g", desc := "(Ljava/lang/Object;)I", isStatic := true
    maxLocals := 1, code := [0x2a, 0xb6, 0, 1, 0xac]
    pool := { entries := #[.method ⟨ofString "a.B", ofString "f", ofString "()I", false⟩] } }

/-- A state with an object of the class `a.B`. -/
def dottedState : Machine.State :=
  { env := (((Machine.Env.new {}).addClass { name := "a.B" }).addMethod dottedMethod).addMethod dottedCall
    heap := #[{ cls := "a.B" }] }

/-- **The method of an owner with a dot is not found**, although the class of the receiver has it. -/
theorem dottedCall_not_found :
    dottedState.env.Selects (ofString "a.B") ⟨ofString "a.B", ofString "f", ofString "()I", false⟩
      (ofString "a.B") ∧
    ((invokeAt 8 dottedCall.key [{ ref := some 0 }]).run dottedState).1 = .error (.thrown (some 1)) ∧
    ((invokeAt 8 dottedCall.key [{ ref := some 0 }]).run dottedState).2.heap[1]? =
      some { cls := Machine.abstractMethodClass } := by
  have hac : dottedState.env.classes.Acyclic :=
    Machine.Hierarchy.acyclic_of_rank (fun c => (dottedState.env.classes.chain c).length) (by decide +kernel)
  have hchain : dottedState.env.classes.chain (ofString "a.B") = [] ++ ofString "a.B" :: [Machine.rootClass] := by
    decide +kernel
  refine ⟨⟨_, _, hchain ▸ Machine.Hierarchy.superChain_chain hac _, by decide +kernel, by simp⟩, ?_, ?_⟩
  · decide +kernel
  · decide +kernel

end Bytelift
