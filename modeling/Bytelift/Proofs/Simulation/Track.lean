import Bytelift.Proofs.Lift.Growth
import Bytelift.Proofs.Machine.Meters
import Bytelift.Proofs.Machine.Values

/-!
# Following a lifting with a run

While a bytecode block is lifted, its code grows at the cursor. A run of the finished module that has executed
the code so far stands at the cursor, too. `Does` says what the code that a lifting step appends does from
there: it performs a computation on the heap and the environment, and the run stands at the new cursor then, or
an instruction stops as the computation stops. Statements are about every module that the module under
construction may grow to.

Main definitions:
* `Reaches`, `At`: a run stands at the cursor, with a frame and a state;
* `Stops`: an instruction of the run stops it;
* `Does`: the code up to the cursor performs a computation.

Results:
* `At.comes`, `Comes.does`: **an instruction that is appended at the cursor is executed**.
-/

namespace Bytelift

open Ir Machine

variable {i : Inst}

namespace Machine

section Runs

variable {call : Caller} {mod : Module} {vs ws : List ValueId} {f f₁ f2 : Frame} {s s1 s2 : State} {c c1 c2 : Config}

theorem Executes.append (h : Executes call mod vs f s f₁ s1) (h' : Executes call mod ws f₁ s1 f2 s2) :
    Executes call mod (vs ++ ws) f s f2 s2 := by
  induction h with
  | done => exact h'
  | step hi he _ ih => exact .step hi he (ih h')

theorem Path.snoc (h : Path call mod (fun _ => True) c c1) (hs : Step call mod c1 c2) :
    Path call mod (fun _ => True) c c2 := by
  induction h with
  | done => exact .step trivial hs (.done trivial)
  | step _ hs' _ ih => exact .step trivial hs' (ih hs)

/-- Only a call asks how methods are called. -/
theorem exec_congr_caller (hop : i.op ≠ .call) (call' : Caller) : exec call mod i f = exec call' mod i f := by
  unfold exec
  split <;> first | rfl | exact absurd ‹_› hop

/-- An instruction that is not a call does not see the meters. -/
theorem exec_blind_of_ne_call (call : Caller) (mod : Module) (f : Frame) (hop : i.op ≠ .call) : Blind (exec call mod i f) := by
  rw [exec_congr_caller hop fun _ _ => throw .stuck]
  exact exec_blind (fun _ _ => .throw _) mod i f

end Runs

/-- A run comes to an instruction, with a frame and a state. -/
def ComesTo (call : Caller) (mod : Module) (start : Config) (i : Inst) (f : Frame) (s : State) : Prop :=
  ∃ c k before v after, Path call mod (fun _ => True) start c ∧ mod.block? c.block = some k ∧
    k.insts.toList = before ++ v :: after ∧ Executes call mod before c.frame (c.state.noted k.label) f s ∧
    mod.inst? v = some i

end Machine

namespace Lift

variable {k : Block}

/-! ## Standing at the cursor -/

/-- A run stands at the cursor: it has come to the block of the cursor and executed the code that is there. -/
def Reaches (call : Caller) (mod : Module) (start : Config) (s : State) (f : Frame) (σ : Machine.State) : Prop :=
  ∃ c k, Path call mod (fun _ => True) start c ∧ s.mod.block? s.cursor.block = some k ∧ c.block = s.cursor.block ∧
    Executes call mod k.insts.toList c.frame (c.state.noted k.label) f σ

/-- A run of a sound module from a configuration. -/
structure Walk where
  call : Caller
  mod : Module
  start : Config
  sound : mod.Sound
  nodup : ∀ {b k}, mod.block? b = some k → k.insts.toList.Nodup
  stands : Machine.Stands mod start.block [] start.frame

variable {s s' : State} {w : Walk} {f f' : Frame} {κ : Machine.State}

/-- The run stands at the cursor, in a state that is `κ` but for the meters. -/
def At (w : Walk) (s : State) (f : Frame) (κ : Machine.State) : Prop :=
  ∃ σ, Reaches w.call w.mod w.start s f σ ∧ σ.bare = κ

/-- An instruction at a bci stops the run. -/
def Stops (w : Walk) (bci : Int) (e : Stop) (κ : Machine.State) : Prop :=
  ∃ i f σ σ', ComesTo w.call w.mod w.start i f σ ∧ i.bci = bci ∧
    (exec w.call w.mod i f).run σ.counted = (.error e, σ') ∧ σ'.bare = κ

/-- The run performs a computation and stands at the cursor then, or an instruction at the bci stops it as the
computation stops. -/
def Does {α : Type} (w : Walk) (bci : Int) (κ : Machine.State) (x : RunM α) (s : State) (Q : α → Frame → Prop) : Prop :=
  ∀ τ : Machine.State, τ.bare = κ → match x.run τ with
    | (.ok a, τ') => ∃ f, At w s f τ'.bare ∧ Q a f
    | (.error e, τ') => Stops w bci e τ'.bare

section Rules

variable {α β : Type} {bci : Int} {x : RunM α} {Q : α → Frame → Prop}

theorem Does.pure {a : α} (h : At w s f κ) (hq : Q a f) : Does w bci κ (pure a) s Q := by
  rintro τ rfl
  exact ⟨f, h, hq⟩

/-- **What is performed piece by piece is performed as a whole.** -/
theorem Does.bind {g : α → RunM β} {R : β → Frame → Prop} (h : Does w bci κ x s Q)
    (hg : ∀ a f κ, At w s f κ → Q a f → Does w bci κ (g a) s' R) : Does w bci κ (x >>= g) s' R := by
  intro τ hτ
  have hx := h τ hτ
  rw [run_bind]
  rcases hrun : x.run τ with ⟨e | a, τ'⟩
  · rw [hrun] at hx
    exact hx
  · rw [hrun] at hx
    obtain ⟨f, hat, hq⟩ := hx
    exact hg a f _ hat hq τ' rfl

theorem Does.mono {R : α → Frame → Prop} (h : Does w bci κ x s Q) (hq : ∀ a f, Q a f → R a f) :
    Does w bci κ x s R := by
  intro τ hτ
  have hx := h τ hτ
  rcases hrun : x.run τ with ⟨e | a, τ'⟩
  · rw [hrun] at hx
    exact hx
  · rw [hrun] at hx
    obtain ⟨f, hat, hq'⟩ := hx
    exact ⟨f, hat, hq a f hq'⟩

theorem Does.of_map {g : α → β} {R : β → Frame → Prop} (h : Does w bci κ (x >>= fun a => Pure.pure (g a)) s R) :
    Does w bci κ x s fun a f => R (g a) f := by
  intro τ hτ
  have hx := h τ hτ
  rw [run_bind] at hx
  rcases hrun : x.run τ with ⟨e | a, τ'⟩ <;> rw [hrun] at hx <;> exact hx

theorem Does.of_pure {a : α} (h : Does w bci κ (Pure.pure a) s Q) (hκ : κ.bare = κ) : ∃ f, At w s f κ ∧ Q a f := by
  obtain ⟨f, hat, hq⟩ := h κ hκ
  exact ⟨f, hκ ▸ hat, hq⟩

end Rules

theorem At.bare (h : At w s f κ) : κ.bare = κ := by
  obtain ⟨σ, -, rfl⟩ := h
  exact Machine.State.bare_bare σ

theorem At.stands (h : At w s f κ) (hM : s.mod.Grows w.mod) : ∃ k, s.mod.block? s.cursor.block = some k ∧
    Stands w.mod s.cursor.block k.insts.toList f := by
  obtain ⟨σ, ⟨c, k, hpath, hk, hc, hx⟩, -⟩ := h
  obtain ⟨k', hk', hg⟩ := hM.block hk
  obtain ⟨after, hafter⟩ := hg.insts
  have hstc := hpath.stands w.sound w.nodup w.stands
  rw [hc] at hstc
  exact ⟨k, hk, hstc.executes w.sound w.nodup hk' hafter.symm hx⟩

theorem At.size (h : At w s f κ) (hM : s.mod.Grows w.mod) : f.values.size = w.mod.insts.size := by
  obtain ⟨k, -, hst⟩ := h.stands hM
  exact hst.size

theorem At.told (h : At w s f κ) (hM : s.mod.Grows w.mod) {v : ValueId} {j : Inst} (hv : s.mod.Avail s.cursor.block v)
    (hj : s.mod.inst? v = some j) : j.id = v ∧ Told j f.values := by
  obtain ⟨k, hk, hst⟩ := h.stands hM
  obtain ⟨j', hj', hid, -⟩ := (hv.mono hM).block_le w.sound
  obtain rfl := Option.mem_unique (hM.inst hj) hj'
  exact ⟨hid, hst.told ((hv.own_or_above hk).imp_right (·.mono hM)) hj'⟩

/-! ## Appending an instruction -/

/-- The run comes to an instruction, and it stands at the cursor when the instruction is executed. -/
def Comes (w : Walk) (s : State) (i : Inst) (f : Frame) (κ : Machine.State) : Prop :=
  ∃ σ, ComesTo w.call w.mod w.start i f σ ∧ σ.bare = κ ∧
    ∀ f₁ σ₁, (exec w.call w.mod i f).run σ.counted = (.ok f₁, σ₁) → Reaches w.call w.mod w.start s f₁ σ₁

/-- **A run that stands before an appended instruction comes to it.** -/
theorem At.comes {v : ValueId} (h : At w s f κ) (hM : s'.mod.Grows w.mod)
    (hk : s.mod.block? s.cursor.block = some k) (hb : s'.cursor.block = s.cursor.block)
    (hk' : s'.mod.block? s.cursor.block = some { k with insts := k.insts.push v }) (hi : s'.mod.inst? v = some i) :
    Comes w s' i f κ := by
  obtain ⟨σ, ⟨c, k0, hpath, hk0, hc, hx⟩, hσ⟩ := h
  obtain rfl := Option.mem_unique hk hk0
  have hiM := hM.inst hi
  obtain ⟨kM, hkM, hg⟩ := hM.block hk'
  obtain ⟨after, hafter⟩ := hg.insts
  refine ⟨σ, ⟨c, kM, k.insts.toList, v, after, hpath, hc ▸ hkM, ?_, ?_, hiM⟩, hσ, fun f₁ σ1 hrun => ?_⟩
  · rw [← hafter]
    simp
  · rw [hg.label]
    exact hx
  · refine ⟨c, _, hpath, by rw [hb, hk'], hc.trans hb.symm, ?_⟩
    rw [Array.toList_push]
    exact hx.append (.step hiM hrun .done)

/-- **The run executes the instruction that it comes to.** A call is told apart, because it may see the meters. -/
theorem Comes.does (h : Comes w s i f κ) (hop : i.op ≠ .call) :
    Does w i.bci κ (exec w.call w.mod i f) s fun f₁ f' => f' = f₁ := by
  intro τ hτ
  obtain ⟨σ, hcomes, hσ, hnext⟩ := h
  have hbare : τ.bare = σ.counted.bare := by simp [hτ, hσ]
  have hout := (exec_blind_of_ne_call w.call w.mod f hop).congr hbare
  unfold outcome at hout
  rcases hrun : (exec w.call w.mod i f).run τ with ⟨e | f₁, τ'⟩ <;>
    rcases hrun' : (exec w.call w.mod i f).run σ.counted with ⟨e' | f1', σ'⟩ <;>
    rw [hrun, hrun'] at hout <;> simp only [Prod.mk.injEq, reduceCtorEq, false_and, Except.error.injEq, Except.ok.injEq] at hout
  · obtain ⟨rfl, hbare⟩ := hout
    exact ⟨i, f, σ, σ', hcomes, rfl, hrun', hbare.symm⟩
  · obtain ⟨rfl, hbare⟩ := hout
    exact ⟨f₁, ⟨σ', hnext f₁ σ' hrun', hbare.symm⟩, rfl⟩

/-- A run that stands at the end of a closed block goes where its terminator says. -/
theorem At.leaves {kM : Block} {b : BlockId} (h : At w s f κ) (hk : s.mod.block? s.cursor.block = some k)
    (hkM : w.mod.block? s.cursor.block = some kM) (hinsts : kM.insts = k.insts) (hlabel : kM.label = k.label)
    (ht : ∀ σ : Machine.State, (execTerm w.mod kM f).run σ = (.ok (.jump b f), σ)) :
    ∃ σ : Machine.State, Path w.call w.mod (fun _ => True) w.start ⟨b, f, σ⟩ ∧ σ.bare = κ := by
  obtain ⟨σ, ⟨c, k0, hpath, hk0, hc, hx⟩, hσ⟩ := h
  obtain rfl := Option.mem_unique hk hk0
  refine ⟨σ, hpath.snoc (step_of_executes (hc ▸ hkM) ?_ (ht σ)), hσ⟩
  rw [hinsts, hlabel]
  exact hx

/-- A run that comes to a block without code stands at a cursor there. -/
theorem At.of_path {σ : Machine.State} (h : Path w.call w.mod (fun _ => True) w.start ⟨s.cursor.block, f, σ⟩)
    (hk : s.mod.block? s.cursor.block = some k) (hnil : k.insts = #[]) : At w s f σ.bare := by
  refine ⟨σ.noted k.label, ⟨_, k, h, hk, rfl, ?_⟩, by simp⟩
  rw [hnil]
  exact .done

/-- Behind an instruction that may throw the run goes on in a new block. -/
theorem At.split {k1 : Block} {next u : BlockId} (h : At w s f κ) (hM : s'.mod.Grows w.mod)
    (hk : s.mod.block? s.cursor.block = some k) (hk' : s'.mod.block? s.cursor.block = some { k with term := .mayUnwind next u })
    (hb : s'.cursor.block = next) (hk1 : s'.mod.block? next = some k1) (hnil : k1.insts = #[]) : At w s' f κ := by
  obtain ⟨kM, hkM, hg⟩ := hM.block hk'
  obtain ⟨hinsts, hcomp⟩ := hg.closed (by simp)
  obtain ⟨u', hterm⟩ := hcomp.mayUnwind
  obtain ⟨σ, hpath, rfl⟩ := h.leaves hk hkM hinsts hg.label (b := next) fun σ => by
    unfold execTerm
    rw [hterm]
    rfl
  subst hb
  exact .of_path hpath hk1 hnil

end Lift

end Bytelift
