import Bytelift.Proofs.Machine.Effects
import Bytelift.Proofs.Machine.Runs

/-!
# Objects keep their classes

Whatever code does, the classes of the environment stay as they are, and an object stays on the heap and
keeps its class. So a test of a class has the same answer before and after other code has run.

Results:
* `invokeAt_keeps`: **every call does so.**
-/

namespace Bytelift.Machine

open Ir State

/-- A state in which the classes and the objects of another one are still there. -/
structure State.Later (s s' : State) : Prop where
  classes : s'.env.classes = s.env.classes
  objects : ∀ {r : Ref} {o : Object}, s.heap[r]? = some o → ∃ o' : Object, s'.heap[r]? = some o' ∧ o'.cls = o.cls

namespace State.Later

variable {s s' s'' : State}

theorem refl (s : State) : Later s s := ⟨rfl, fun h => ⟨_, h, rfl⟩⟩

theorem trans (h : Later s s') (h' : Later s' s'') : Later s s'' where
  classes := h'.classes.trans h.classes
  objects hr := by
    obtain ⟨o', ho', hc⟩ := h.objects hr
    obtain ⟨o'', ho'', hc'⟩ := h'.objects ho'
    exact ⟨o'', ho'', hc'.trans hc⟩

theorem of_eq (hc : s'.env.classes = s.env.classes) (hh : s'.heap = s.heap) : Later s s' :=
  ⟨hc, fun h => ⟨_, hh ▸ h, rfl⟩⟩

theorem noted (s : State) (label : Text) : Later s (s.noted label) := .of_eq rfl rfl

theorem push (o : Object) : Later s { s with heap := s.heap.push o } := by
  refine ⟨rfl, fun {r p} h => ⟨p, ?_, rfl⟩⟩
  obtain ⟨hlt, rfl⟩ := Array.getElem?_eq_some_iff.1 h
  exact Array.getElem?_push_lt hlt

theorem set {r : Ref} {o o' : Object} (h : s.heap[r]? = some o) (hc : o'.cls = o.cls) :
    Later s { s with heap := s.heap.setIfInBounds r o' } := by
  refine ⟨rfl, fun {q p} hq => ?_⟩
  by_cases hqr : q = r
  · subst hqr
    obtain rfl := Option.mem_unique h hq
    exact ⟨o', by rw [Array.getElem?_setIfInBounds_self, if_pos (Array.getElem?_eq_some_iff.1 h).1], hc⟩
  · exact ⟨p, by rw [Array.getElem?_setIfInBounds_ne (Ne.symm hqr)]; exact hq, rfl⟩

end State.Later

/-- However a computation ends, classes and objects are still there. -/
def Keeps {α : Type} (x : RunM α) : Prop := ∀ s, State.Later s (x.run s).2

section Rules

variable {α β : Type} {x : RunM α}

theorem Keeps.pure (a : α) : Keeps (pure a : RunM α) := .refl

theorem Keeps.throw (e : Stop) : Keeps (throw e : RunM α) := .refl

theorem Keeps.bind {f : α → RunM β} (hx : Keeps x) (hf : ∀ a, Keeps (f a)) : Keeps (x >>= f) := by
  intro s
  have hs := hx s
  rw [run_bind]
  generalize x.run s = r at hs
  obtain ⟨_ | a, s1⟩ := r
  · exact hs
  · exact hs.trans (hf a s1)

/-- The second part may rely on what the first one found. -/
theorem Keeps.bind_ok {f : α → RunM β} (hx : Keeps x)
    (hf : ∀ s a s', x.run s = (.ok a, s') → Later s' ((f a).run s').2) : Keeps (x >>= f) := by
  intro s
  have hs := hx s
  have hfs := hf s
  rw [run_bind]
  generalize x.run s = r at hs hfs
  obtain ⟨_ | a, s1⟩ := r
  · exact hs
  · exact hs.trans (hfs a s1 rfl)

theorem Keeps.get : Keeps (get : RunM State) := .refl

theorem Keeps.modify {f : State → State} (hf : ∀ s, Later s (f s)) : Keeps (modify f : RunM Unit) := hf

theorem Keeps.need (o : Option α) : Keeps (need o) := by
  cases o
  · exact .throw _
  · exact .pure _

theorem Keeps.attempt (hx : Keeps x) : Keeps (attempt x) := by
  intro s
  rw [run_attempt]
  exact hx s

end Rules

/-- A computation keeps classes and objects if the calls that it makes do. -/
theorem Does.later {call : Caller} {P : Stop → Prop} {α : Type} {x : RunM α} {s : State}
    (hcall : ∀ key args, Keeps (call key args)) (h : Does call P x s) : Later s (x.run s).2 := by
  induction h with
  | pure | throw => exact .refl _
  | @bind_ok _ _ s x _ _ _ ihx ihf =>
    rw [run_bind]
    generalize x.run s = r at ihx ihf
    obtain ⟨_ | a, s1⟩ := r
    · exact ihx
    · exact ihx.trans (ihf a s1 rfl)
  | get _ _ ih => exact ih
  | alloc o => exact .push o
  | setObject ho hcls => exact .set ho hcls
  | setEnv hg => exact .of_eq (hg _) rfl
  | call => exact hcall _ _ _

/-! ## Operations -/

theorem keeps_alloc (o : Object) : Keeps (alloc o) := fun _ => .push o

theorem keeps_throwNew {α : Type} (cls : Text) : Keeps (throwNew cls : RunM α) :=
  (keeps_alloc _).bind fun _ => .throw _

theorem keeps_intern (t : Text) : Keeps (intern t) := by
  refine Keeps.get.bind fun s => ?_
  split
  · exact .pure _
  · refine (keeps_alloc _).bind fun r => Keeps.bind ?_ fun _ => .pure _
    exact Keeps.modify fun s => .of_eq rfl rfl

theorem keeps_failIf (c : Prop) [Decidable c] (e : RunError) : Keeps (failIf c e) := by
  unfold failIf
  split
  · exact .throw _
  · exact .pure _

theorem keeps_thrownObject (v : Value) : Keeps (thrownObject v) := by
  unfold thrownObject
  split
  · exact .pure _
  · exact keeps_alloc _

theorem keeps_value (f : Frame) (v : ValueId) : Keeps (f.value v) := .need _

theorem keeps_execTerm (mod : Module) (k : Block) (f : Frame) : Keeps (execTerm mod k f) := by
  unfold execTerm
  split
  · exact .pure _
  · exact .pure _
  · exact .pure _
  · exact (keeps_value f _).bind fun _ => .pure _
  · refine (keeps_value f _).bind fun _ => ?_
    split
    · exact .pure _
    · split
      · exact .throw _
      · exact .pure _
  · split
    · exact .pure _
    · exact (keeps_value f _).bind fun _ => .pure _
  · refine (keeps_value f _).bind fun _ => (keeps_thrownObject _).bind fun _ => ?_
    split
    · exact .pure _
    · exact .throw _
  · exact (keeps_value f _).bind fun _ => .throw _
  · exact .throw _
  · exact .throw _
  · exact .throw _

section Instructions

variable {call : Caller} (hcall : ∀ key args, Keeps (call key args))

include hcall

theorem exec_keeps (mod : Module) (i : Inst) (f : Frame) : Keeps (exec call mod i f) :=
  fun s => (exec_does call mod i f s).later hcall

theorem execFrom_keeps (mod : Module) (k : Block) (ids : List ValueId) (f : Frame) : Keeps (execFrom call mod k ids f) := by
  induction ids generalizing f with
  | nil => exact keeps_execTerm mod k f
  | cons v vs ih =>
    refine (Keeps.need _).bind fun i => Keeps.bind ?_ fun _ => (exec_keeps hcall mod i f).attempt.bind fun r => ?_
    · exact Keeps.modify fun s => .of_eq rfl rfl
    split
    · exact ih _
    · split
      · exact .pure _
      · exact .throw _
    · exact .throw _

end Instructions

section Calls

variable {call : Caller} {mod : Module} {c c' : Config}

section

variable (hcall : ∀ key args, Keeps (call key args))

include hcall

theorem Step.later (h : Step call mod c c') : Later c.state c'.state := by
  obtain ⟨k, -, hr⟩ := h
  have hkeeps := execFrom_keeps hcall mod k k.insts.toList c.frame (c.state.noted k.label)
  rw [hr] at hkeeps
  exact (Later.noted c.state k.label).trans hkeeps

theorem Path.later {P : BlockId → Prop} (h : Path call mod P c c') :
    Later c.state c'.state := by
  induction h with
  | done => exact .refl _
  | step _ hs _ ih => exact (hs.later hcall).trans ih

theorem runBlocks_keeps (n : Nat) (b : BlockId) (f : Frame) (s : State) :
    Later s (runBlocks call mod n b f s).2 := by
  induction n generalizing b f s with
  | zero => exact .refl s
  | succ n ih =>
    have hblock : Later s ((execBlock call mod b f).run s).2 := by
      rw [run_execBlock]
      split
      · exact .refl s
      · split
        · exact (Later.noted s _).trans (execFrom_keeps hcall mod _ _ f _)
        · exact .noted s _
    unfold runBlocks
    generalize (execBlock call mod b f).run s = r at hblock
    obtain ⟨_ | _ | _, s1⟩ := r
    · exact hblock
    · exact hblock.trans (ih _ _ s1)
    · exact hblock

theorem activate_keeps (mod : Module) (args : List Value) :
    Keeps (activate call mod args) :=
  (keeps_failIf _ _).bind fun _ => (Keeps.need _).bind fun _ => Keeps.get.bind fun _ => fun s =>
    runBlocks_keeps hcall _ _ _ s

end

theorem classes_module? (e : Env) (key : Text) : (e.module? key).2.classes = e.classes := by
  unfold Env.module?
  split
  · rfl
  · rfl
  · split <;> rfl

theorem keeps_findModule (key : Text) : Keeps (findModule key) := by
  refine Keeps.get.bind_ok fun s a s' h => ?_
  cases h
  have hclasses := classes_module? s.env key
  generalize s.env.module? key = r at hclasses
  obtain ⟨_ | found, env⟩ := r
  · exact .of_eq hclasses rfl
  · exact .of_eq hclasses rfl

theorem keeps_make (l : Literal) : Keeps l.make := by
  refine Keeps.bind ?_ fun _ => .pure _
  unfold RefLiteral.make
  split
  · exact .pure _
  · exact .pure _
  · exact (keeps_intern _).bind fun _ => .pure _
  · exact (keeps_alloc _).bind fun _ => .pure _

theorem keeps_native (hcall : ∀ key args, Keeps (call key args)) (n : Native) (args : List Value) :
    Keeps (n.run call args) := by
  cases n with
  | answer v => exact keeps_make v
  | throwNew cls => exact keeps_throwNew cls
  | throwArg index => exact (Keeps.need _).bind fun _ => .throw _
  | fail message => exact .throw _
  | arg index => exact .need _
  | call target => exact hcall target args

/-- **Every call keeps classes and objects.** -/
theorem invokeAt_keeps (depth : Nat) (key : Text) (args : List Value) : Keeps (invokeAt depth key args) := by
  induction depth generalizing key args with
  | zero => exact keeps_throwNew _
  | succ depth ih =>
    refine Keeps.get.bind_ok fun s a s' h => ?_
    cases h
    cases s.env.natives.lookup key with
    | some n =>
      have hnoted : Later s { s with meter := s.meter.noteCall ⟨key, args, s.heap⟩ } := .of_eq rfl rfl
      exact hnoted.trans (keeps_native ih n args _)
    | none =>
      refine ((keeps_findModule key).bind fun found => ?_) s
      split
      · exact activate_keeps ih _ args
      · split
        · exact .pure _
        · exact .throw _

end Calls

end Bytelift.Machine
