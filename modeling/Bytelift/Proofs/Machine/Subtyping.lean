import Bytelift.Proofs.Lift.Dispatch
import Bytelift.Proofs.Machine.Resolution

/-!
# Subtypes

A class inherits directly from its interfaces and its superclass. Whether an object is an instance of a class is
whether its class comes to that one by such steps, none of them at an array, and that is asked in three places: by
the test of a type, by a cast, and by the dispatch of an exception to a catch.

Results:
* `isSubclass_reachable`: **being a subclass is being reached from**, a preorder with the root class on top, and it
  is what a test, a cast and a catch agree on.
-/

namespace Bytelift.Machine

open Relation
open Ir (BlockId)
open Text (ofString)

namespace Hierarchy

/-- A class that is no array inherits directly from another such class. -/
def InheritsPlain (h : Hierarchy) (a b : Text) : Prop :=
  h.Inherits a b ∧ isArrayName a = false ∧ isArrayName b = false

/-- What being a subclass comes to one step up, as `up` says. -/
def isSubclassBy (h : Hierarchy) (up : Text → Text → Bool) (cls target : Text) : Bool :=
  cls == target || target == rootClass ||
    (!isArrayName cls && !isArrayName target &&
      match h.lookup cls with
      | none => false
      | some c => c.interfaces.any (fun i => up i target) || (!c.super.isEmpty && up c.super target))

variable {h : Hierarchy} {a b : Text}

/-- **The classes above a class are those that are reached from it.** -/
theorem below_iff : Below h b a ↔ a = b ∨ b = rootClass ∨ TransGen h.InheritsPlain a b := by
  constructor
  · intro hb
    induction hb with
    | self => exact .inl rfl
    | root ht => exact .inr (.inl ht)
    | up hcls ht hl hm _ ih =>
      rcases ih with rfl | hroot | hreach
      · exact .inr (.inr (.single ⟨⟨_, hl, hm⟩, hcls, ht⟩))
      · exact .inr (.inl hroot)
      · obtain ⟨_, hfirst, -⟩ := TransGen.head'_iff.1 hreach
        exact .inr (.inr (.head ⟨⟨_, hl, hm⟩, hcls, hfirst.2.1⟩ hreach))
  · rintro (rfl | hroot | hreach)
    · exact .self
    · exact .root hroot
    · obtain ⟨_, -, hlast⟩ := TransGen.tail'_iff.1 hreach
      induction hreach using TransGen.head_induction_on with
      | single hs =>
        obtain ⟨⟨c, hl, hm⟩, ha, hb⟩ := hs
        exact .up ha hb hl hm .self
      | head hs _ ih =>
        obtain ⟨⟨c, hl, hm⟩, ha, -⟩ := hs
        exact .up ha hlast.2.2 hl hm ih

/-- The answer of one step more is the answer. -/
theorem isSubclass_eq_by (h : Hierarchy) (a b : Text) : h.isSubclass a b = h.isSubclassBy h.isSubclass a b := by
  have hstep : h.isSubclassBy h.isSubclass a b = h.isSubclassWithin (h.length + 1) a b := rfl
  rw [hstep, Bool.eq_iff_iff]
  exact ⟨isSubclassWithin_mono, isSubclassWithin_length⟩

/-- **The steps up from a class come to an end**, after no more of them than there are classes. -/
theorem length_le_of_isChain (hac : ∀ a, ¬ TransGen h.Inherits a a) {l : List Text}
    (hl : List.IsChain h.Inherits (a :: l)) : l.length ≤ h.length := by
  have hpair : (a :: l).Pairwise (TransGen h.Inherits) := (hl.imp fun _ _ => .single).pairwise
  have hnodup : (a :: l).Nodup := hpair.imp fun {x y} hxy => by
    rintro rfl
    exact hac x hxy
  -- all but the last class of the chain are declared
  have hdecl : ∀ x ∈ (a :: l).dropLast, x ∈ h.map (·.1) := by
    clear hpair hnodup
    induction l generalizing a with
    | nil => simp
    | cons b l ih =>
      obtain ⟨⟨c, hc, -⟩, hl⟩ := List.isChain_cons_cons.1 hl
      rw [List.dropLast_cons_of_ne_nil (by simp)]
      simp only [List.mem_cons, forall_eq_or_imp]
      exact ⟨mem_names_of_lookup hc, ih hl⟩
  simpa using length_le_of_nodup (hnodup.sublist (List.dropLast_sublist _)) hdecl

/-- Nothing is above a root class that inherits from nothing. -/
theorem isSubclass_trans (hroot : ∀ b, ¬ h.Inherits rootClass b) {c : Text} (hab : h.isSubclass a b = true)
    (hbc : h.isSubclass b c = true) : h.isSubclass a c = true := by
  rw [isSubclass_iff, below_iff] at hab hbc ⊢
  rcases hab with rfl | rfl | hab
  · exact hbc
  · rcases hbc with rfl | rfl | hbc
    · exact .inr (.inl rfl)
    · exact .inr (.inl rfl)
    · obtain ⟨_, hfirst, -⟩ := TransGen.head'_iff.1 hbc
      exact absurd hfirst.1 (hroot _)
  · rcases hbc with rfl | rfl | hbc
    · exact .inr (.inr hab)
    · exact .inr (.inl rfl)
    · exact .inr (.inr (hab.trans hbc))

end Hierarchy

/-- An environment to which classes and programs were added, none of which declares the root class. -/
inductive Env.Built : Env → Prop
  | new (s : Settings) : Built (Env.new s)
  | addClass {e : Env} {c : ClassRef} (he : Built e) (hc : c.name ≠ rootClass) : Built (e.addClass c)
  | addProgram {e : Env} {p : Program} (he : Built e) (hp : ∀ c ∈ p.classes, c.name ≠ rootClass) : Built (e.addProgram p)

theorem Hierarchy.lookup_declare {h : Hierarchy} {c : ClassRef} {a : Text} (hc : c.name ≠ a) :
    (h.declare c).lookup a = h.lookup a := by
  unfold declare
  split
  · exact (lookup_assign ..).trans (if_neg hc.symm)
  · exact (lookup_assign ..).trans (if_neg hc.symm)

theorem Env.classes_addProgram (e : Env) (p : Program) :
    (e.addProgram p).classes = p.classes.foldl Hierarchy.declare e.classes := by
  have hmethods (ms : List Method) (e : Env) : (ms.foldl addMethod e).classes = e.classes := by
    induction ms generalizing e with
    | nil => rfl
    | cons m ms ih => exact ih (e.addMethod m)
  refine (hmethods _ _).trans ?_
  generalize p.classes = cs
  induction cs generalizing e with
  | nil => rfl
  | cons c cs ih => exact ih (e.addClass c)

/-- The root class inherits from nothing, as in the beginning. -/
theorem Env.Built.not_inherits {e : Env} (he : e.Built) (b : Text) : ¬ e.classes.Inherits rootClass b := by
  have hlookup : e.classes.lookup rootClass = some { name := rootClass } := by
    induction he with
    | new s => rfl
    | addClass _ hc ih => exact (Hierarchy.lookup_declare hc).trans ih
    | @addProgram e p _ hp ih =>
      rw [classes_addProgram]
      exact List.foldlRecOn (motive := fun h : Hierarchy => h.lookup rootClass = some { name := rootClass }) p.classes _ ih
        fun h hh c hc => (Hierarchy.lookup_declare (hp c hc)).trans hh
  rintro ⟨c, hc, hb⟩
  obtain rfl := Option.some.inj (hlookup.symm.trans hc)
  rcases hb with hb | ⟨rfl, hb⟩
  · cases hb
  · exact hb rfl

theorem run_checkCast {v : Value} {r : Ref} {o : Object} {s : State} (hv : v.ref = some r) (ho : s.heap[r]? = some o)
    (cls : Text) : (checkCast v cls).run s =
      if s.env.classes.isSubclass o.cls cls then (.ok (), s) else (throwNew castClass).run s := by
  unfold checkCast
  rw [if_neg (by simp [hv]), run_bind_of_ok (run_object hv ho)]
  have htest : (isInstance o cls).run s = (.ok (s.env.classes.isSubclass o.cls cls), s) := rfl
  rw [run_bind_of_ok htest]
  split
  · rfl
  · rfl

/-- **Being a subclass is being reached from.** In an environment whose classes have no cycle the search for a class
comes to an end, and it answers whether the class is reached through classes that are no arrays, is the same, or is
the root class. That is a preorder with the root class on top, and one answer for each class decides what a test of
a type, a cast and the rows of an exception table do with an object. -/
theorem isSubclass_reachable {e : Env} (he : e.Built) (hac : ∀ a, ¬ Relation.TransGen e.classes.Inherits a a) :
    ((∀ a l, List.IsChain e.classes.Inherits (a :: l) → l.length ≤ e.classes.length) ∧
      ∀ a b, e.classes.isSubclass a b = e.classes.isSubclassBy e.classes.isSubclass a b) ∧
    (∀ a b, e.classes.isSubclass a b = true ↔ a = b ∨ b = rootClass ∨ Relation.TransGen e.classes.InheritsPlain a b) ∧
    ((∀ a, e.classes.isSubclass a a = true) ∧
      (∀ a b c, e.classes.isSubclass a b = true → e.classes.isSubclass b c = true → e.classes.isSubclass a c = true) ∧
      ∀ a, e.classes.isSubclass a rootClass = true) ∧
    ∀ (s : State) (r : Ref) (o : Object), s.env.classes = e.classes → s.heap[r]? = some o →
      let fits := e.classes.isSubclass o.cls
      (∀ (v : Value) cls, v.ref = some r → (instanceOf v cls).run s = (.ok (.ofBool (fits cls)), s) ∧
        (checkCast v cls).run s = if fits cls then (.ok (), s) else (throwNew castClass).run s) ∧
      ∀ (m : Method) (settings : Settings) (mod : Ir.Module) (cx : Lift.Context) (bci : Int) (p : BlockId),
        liftMethod m settings = .ok mod → Lift.context m settings = .ok cx → mod.blocks.size ≤ 2 ^ 31 → mod.IsPad bci p →
        ∀ (call : Caller), (∀ key args, Keeps (call key args)) → ∀ f : Frame, f.inflight = some r → f.values.size = mod.insts.size →
          Lift.Performs call cx mod p r (Lift.actions fits [] (HandlerTable.covering m.exceptions bci)) ⟨p, f, s⟩ := by
  refine ⟨⟨fun _ _ => Hierarchy.length_le_of_isChain hac, e.classes.isSubclass_eq_by⟩, fun a b => ?_,
    ⟨fun a => Hierarchy.isSubclass_iff.2 .self, fun a b c => Hierarchy.isSubclass_trans he.not_inherits,
      fun a => Hierarchy.isSubclass_iff.2 (.root rfl)⟩, fun s r o hs ho => ?_⟩
  · rw [Hierarchy.isSubclass_iff, Hierarchy.below_iff]
  · rw [← hs]
    refine ⟨fun v cls hv => ⟨run_instanceOf hv ho cls, run_checkCast hv ho cls⟩, ?_⟩
    intro m settings mod cx bci p hm hcx hsize hp call hkeeps f hr hvalues
    exact Lift.performs_of_isPad hm hcx hsize hp hkeeps (c := ⟨p, f, s⟩) rfl hr hvalues ho

/-- Two exceptions, one of which implements an interface. -/
def faultEnv : Env :=
  ((Env.new {}).addClass { name := "Marked" }).addProgram
    { classes := [{ name := "Fault", super := arithmeticClass, interfaces := [ofString "Marked"] }] }

/-- A fault is marked and an exception, which a test, a cast and a catch tell alike. -/
theorem faultEnv_reachable :
    faultEnv.classes.isSubclass (ofString "Fault") (ofString "Marked") = true ∧
    (checkCast (.ofRef 0) (ofString "Marked")).run { env := faultEnv, heap := #[{ cls := "Fault" }] } =
      (.ok (), { env := faultEnv, heap := #[{ cls := "Fault" }] }) := by
  have hbuilt : faultEnv.Built := .addProgram (.addClass (.new {}) (by decide)) (by decide)
  -- every class was declared before the classes that inherit from it
  have hbefore : ∀ x ∈ faultEnv.classes, ∀ b ∈ x.2.interfaces ++ [x.2.super].filter (· ≠ []),
      (faultEnv.classes.map (·.1)).idxOf b < (faultEnv.classes.map (·.1)).idxOf x.1 := by decide
  have hup {a b : Text} (h : Relation.TransGen faultEnv.classes.Inherits a b) :
      (faultEnv.classes.map (·.1)).idxOf b < (faultEnv.classes.map (·.1)).idxOf a := by
    have hstep {a b : Text} (h : faultEnv.classes.Inherits a b) :
        (faultEnv.classes.map (·.1)).idxOf b < (faultEnv.classes.map (·.1)).idxOf a := by
      obtain ⟨c, hl, hb⟩ := h
      obtain ⟨_, _, hsplit, -⟩ := List.lookup_eq_some_iff.1 hl
      exact hbefore (a, c) (by simp [hsplit]) b (by simpa using hb)
    induction h with
    | single h => exact hstep h
    | tail _ h ih => exact (hstep h).trans ih
  obtain ⟨-, -, -, hagree⟩ := isSubclass_reachable hbuilt fun a h => lt_irrefl _ (hup h)
  have hfits : faultEnv.classes.isSubclass (ofString "Fault") (ofString "Marked") = true := by decide
  exact ⟨hfits, ((hagree { env := faultEnv, heap := #[{ cls := "Fault" }] } 0 _ rfl rfl).1 _ _ rfl).2.trans (if_pos hfits)⟩

end Bytelift.Machine
