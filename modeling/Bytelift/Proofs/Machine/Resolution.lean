import Bytelift.Proofs.Code.Descriptors
import Bytelift.Proofs.Machine.Execution
import Mathlib.Data.List.Perm.Subperm
import Mathlib.Logic.Relation

/-!
# Finding the method that a selector denotes

The walks through the class hierarchy are bounded by the number of classes. Here they are compared with relations
that know no bound: the chain of the superclasses of a class, and the classes above a class. The bound is large
enough, because a walk that were longer would come to a class twice.

A symbol is cut at its first dot when it is looked up. The part behind the dot is the selector that the symbol was
made from if the owner has no dot of its own.

Results:
* `Hierarchy.superChain_chain`: **the chain of a class is complete** if no class is above itself;
* `run_lookupMethod`: **a lookup finds the method of the most derived class that has one**, or raises an error.
-/

namespace Bytelift.Machine

open List Relation

namespace Hierarchy

/-- A declared class has a superclass. A class without a name is none. -/
def Extends (h : Hierarchy) (a b : Text) : Prop := ∃ c, h.lookup a = some c ∧ c.super = b ∧ b ≠ []

/-- No class is its own superclass, however far up. -/
def Acyclic (h : Hierarchy) : Prop := ∀ a, ¬ Relation.TransGen h.Extends a a

/-- A declared class inherits directly from another one, its superclass or an interface. -/
def Inherits (h : Hierarchy) (a b : Text) : Prop :=
  ∃ c, h.lookup a = some c ∧ (b ∈ c.interfaces ∨ b = c.super ∧ b ≠ [])

/-- A class and its superclasses, the most derived first. -/
inductive SuperChain (h : Hierarchy) : Text → List Text → Prop
  | none : SuperChain h [] []
  | undeclared {cls} (hne : cls ≠ []) (hl : h.lookup cls = .none) : SuperChain h cls [cls]
  | declared {cls c l} (hne : cls ≠ []) (hl : h.lookup cls = some c) (hc : SuperChain h c.super l) : SuperChain h cls (cls :: l)

/-- A class is or inherits from another one. The root class is above every class; apart from that a class inherits
from its interfaces and its superclass, and array classes have no part in this. -/
inductive Below (h : Hierarchy) (target : Text) : Text → Prop
  | self : Below h target target
  | root {cls} (ht : target = rootClass) : Below h target cls
  | up {cls c m} (hcls : isArrayName cls = false) (ht : isArrayName target = false) (hl : h.lookup cls = some c)
      (hm : m ∈ c.interfaces ∨ m = c.super ∧ m ≠ []) (hb : Below h target m) : Below h target cls

variable {h : Hierarchy} {cls target : Text} {n : Nat}

theorem SuperChain.unique {l l' : List Text} (hc : SuperChain h cls l) (hc' : SuperChain h cls l') : l = l' := by
  induction hc generalizing l' with
  | none =>
    cases hc' with
    | none => rfl
    | undeclared hne _ => exact absurd rfl hne
    | declared hne _ _ => exact absurd rfl hne
  | undeclared hne hl =>
    cases hc' with
    | none => exact absurd rfl hne
    | undeclared => rfl
    | declared _ hl' _ => cases hl.symm.trans hl'
  | declared hne hl _ ih =>
    cases hc' with
    | none => exact absurd rfl hne
    | undeclared _ hl' => cases hl'.symm.trans hl
    | declared _ hl' hc' =>
      obtain rfl := Option.mem_unique hl hl'
      rw [ih hc']

/-- A hierarchy has no cycles if the superclasses of its classes are smaller in some measure. -/
theorem acyclic_of_rank (rank : Text → Nat) (hrank : ∀ d ∈ h, d.2.super ≠ [] → rank d.2.super < rank d.1) : h.Acyclic := by
  have hup {a b : Text} (hab : TransGen h.Extends a b) : rank b < rank a := by
    have hstep {a b : Text} (hab : h.Extends a b) : rank b < rank a := by
      obtain ⟨c, hl, rfl, hne⟩ := hab
      obtain ⟨before, after, rfl, -⟩ := lookup_eq_some_iff.1 hl
      exact hrank (a, c) (by simp) hne
    induction hab with
    | single hab => exact hstep hab
    | tail _ hbc ih => exact Nat.lt_trans (hstep hbc) ih
  exact fun a ha => Nat.lt_irrefl _ (hup ha)

theorem mem_names_of_lookup {c : ClassRef} (hl : h.lookup cls = some c) : cls ∈ h.map (·.1) := by
  obtain ⟨before, after, rfl, -⟩ := lookup_eq_some_iff.1 hl
  simp

/-- There are no more different declared classes than declarations. -/
theorem length_le_of_nodup {l : List Text} (hn : l.Nodup) (hl : ∀ x ∈ l, x ∈ h.map (·.1)) : l.length ≤ h.length := by
  simpa using (List.Nodup.subperm hn hl).length_le

/-! ## The chain of superclasses -/

/-- A bounded walk up the superclasses comes to an end, or it finds as many classes as the bound says, each above
the one before. -/
theorem superChain_chainWithin_or (h : Hierarchy) (n : Nat) (cls : Text) :
    SuperChain h cls (h.chainWithin n cls) ∨ ∃ l : List Text, l.length = n ∧ (∀ x ∈ l, x ∈ h.map (·.1)) ∧
      l.Pairwise (TransGen h.Extends) ∧ ∀ x ∈ l, ReflTransGen h.Extends cls x := by
  induction n generalizing cls with
  | zero => exact .inr ⟨[], rfl, by simp, .nil, by simp⟩
  | succ n ih =>
    unfold chainWithin
    by_cases hne : cls = []
    · subst hne
      exact .inl .none
    rw [if_neg (by simpa using hne)]
    cases hl : h.lookup cls with
    | none => exact .inl (.undeclared hne hl)
    | some c =>
      rcases ih c.super with hc | ⟨l, hlen, hdecl, hpair, hfrom⟩
      · exact .inl (.declared hne hl hc)
      by_cases hsuper : c.super = []
      · have hnil : h.chainWithin n [] = [] := by cases n <;> rfl
        dsimp only
        rw [hsuper, hnil]
        exact .inl (.declared hne hl (hsuper ▸ .none))
      have hup : ∀ x ∈ l, TransGen h.Extends cls x := fun x hx =>
        TransGen.head' ⟨c, hl, rfl, hsuper⟩ (hfrom x hx)
      refine .inr ⟨cls :: l, by rw [length_cons, hlen], fun x hx => ?_, pairwise_cons.2 ⟨hup, hpair⟩, fun x hx => ?_⟩ <;>
        rcases mem_cons.1 hx with rfl | hx
      · exact mem_names_of_lookup hl
      · exact hdecl x hx
      · exact .refl
      · exact (hup x hx).to_reflTransGen

/-- **The chain of a class is complete.** -/
theorem superChain_chain (hac : h.Acyclic) (cls : Text) : SuperChain h cls (h.chain cls) := by
  rcases superChain_chainWithin_or h (h.length + 1) cls with hc | ⟨l, hlen, hdecl, hpair, -⟩
  · exact hc
  have hn : l.Nodup := hpair.imp fun {x y} hxy => by
    rintro rfl
    exact hac x hxy
  have := length_le_of_nodup hn hdecl
  omega

/-! ## The classes above a class -/

/-- What a class has to do with another one that is found in a further step. -/
theorem isSubclassWithin_succ : h.isSubclassWithin (n + 1) cls target = true ↔ cls = target ∨ target = rootClass ∨
    (isArrayName cls = false ∧ isArrayName target = false ∧ ∃ c m, h.lookup cls = some c ∧
      (m ∈ c.interfaces ∨ m = c.super ∧ m ≠ []) ∧ h.isSubclassWithin n m target = true) := by
  rw [isSubclassWithin]
  simp only [Bool.or_eq_true, beq_iff_eq, Bool.and_eq_true, Bool.not_eq_true', or_assoc]
  refine or_congr_right (or_congr_right ?_)
  rw [and_assoc]
  refine and_congr_right fun _ => and_congr_right fun _ => ?_
  cases h.lookup cls with
  | none => simp
  | some c =>
    simp only [Bool.or_eq_true, any_eq_true, Bool.and_eq_true, Bool.not_eq_true', isEmpty_eq_false_iff,
      Option.some.injEq, exists_and_left, exists_eq_left']
    constructor
    · rintro (⟨m, hm, hb⟩ | ⟨hne, hb⟩)
      · exact ⟨m, .inl hm, hb⟩
      · exact ⟨c.super, .inr ⟨rfl, hne⟩, hb⟩
    · rintro ⟨m, hm | ⟨rfl, hne⟩, hb⟩
      · exact .inl ⟨m, hm, hb⟩
      · exact .inr ⟨hne, hb⟩

theorem isSubclassWithin_zero : h.isSubclassWithin 0 cls target = true ↔ cls = target ∨ target = rootClass := by
  simp [isSubclassWithin]

theorem isSubclassWithin_mono (hb : h.isSubclassWithin n cls target = true) :
    h.isSubclassWithin (n + 1) cls target = true := by
  induction n generalizing cls with
  | zero =>
    rw [isSubclassWithin_succ]
    rcases isSubclassWithin_zero.1 hb with hb | hb
    · exact .inl hb
    · exact .inr (.inl hb)
  | succ n ih =>
    rw [isSubclassWithin_succ] at hb ⊢
    refine hb.imp_right (.imp_right fun ⟨hcls, ht, c, m, hl, hm, hb⟩ => ?_)
    exact ⟨hcls, ht, c, m, hl, hm, ih hb⟩

/-- What takes all of a number of steps takes as many declared classes. -/
theorem exists_declared (hb : h.isSubclassWithin (n + 1) cls target = true) (hno : h.isSubclassWithin n cls target = false) :
    ∃ l : List Text, l.length = n + 1 ∧ l.Nodup ∧ ∀ x ∈ l, x ∈ h.map (·.1) ∧ h.isSubclassWithin (n + 1) x target = true := by
  induction n generalizing cls with
  | zero =>
    rcases isSubclassWithin_succ.1 hb with hx | hx | ⟨-, -, c, -, hl, -⟩
    · simp [isSubclassWithin_zero.2 (.inl hx)] at hno
    · simp [isSubclassWithin_zero.2 (.inr hx)] at hno
    · refine ⟨[cls], rfl, by simp, fun x hx => ?_⟩
      obtain rfl := mem_singleton.1 hx
      exact ⟨mem_names_of_lookup hl, hb⟩
  | succ n ih =>
    rcases isSubclassWithin_succ.1 hb with hx | hx | ⟨hcls, ht, c, m, hl, hm, hup⟩
    · simp [isSubclassWithin_succ.2 (.inl hx)] at hno
    · simp [isSubclassWithin_succ.2 (.inr (.inl hx))] at hno
    -- the next class takes one step less, and no fewer
    have hfar : h.isSubclassWithin n m target = false := by
      rw [Bool.eq_false_iff]
      intro hnear
      simp [isSubclassWithin_succ.2 (.inr (.inr ⟨hcls, ht, c, m, hl, hm, hnear⟩))] at hno
    obtain ⟨l, hlen, hnodup, hall⟩ := ih hup hfar
    refine ⟨cls :: l, by rw [length_cons, hlen], nodup_cons.2 ⟨fun hmem => ?_, hnodup⟩, fun x hx => ?_⟩
    · simp [(hall cls hmem).2] at hno
    · rcases mem_cons.1 hx with rfl | hx
      · exact ⟨mem_names_of_lookup hl, hb⟩
      · exact ⟨(hall x hx).1, isSubclassWithin_mono (hall x hx).2⟩

/-- No more steps are needed than there are classes. -/
theorem isSubclassWithin_length (hb : h.isSubclassWithin n cls target = true) : h.isSubclass cls target = true := by
  induction n with
  | zero =>
    unfold isSubclass
    cases h.length with
    | zero => exact hb
    | succ k => exact isSubclassWithin_succ.2 ((isSubclassWithin_zero.1 hb).imp_right .inl)
  | succ n ih =>
    cases hn : h.isSubclassWithin n cls target with
    | true => exact ih hn
    | false =>
      obtain ⟨l, hlen, hnodup, hall⟩ := exists_declared hb hn
      have hle := length_le_of_nodup hnodup fun x hx => (hall x hx).1
      have hup (k : Nat) : h.isSubclassWithin (n + 1 + k) cls target = true := by
        induction k with
        | zero => exact hb
        | succ k ihk => exact isSubclassWithin_mono ihk
      obtain ⟨k, hk⟩ := Nat.exists_eq_add_of_le (hlen ▸ hle)
      unfold isSubclass
      rw [hk]
      exact hup k

/-- **A class inherits from another one just if that is above it.** -/
theorem isSubclass_iff : h.isSubclass cls target = true ↔ Below h target cls := by
  constructor
  · unfold isSubclass
    generalize h.length = n
    intro hb
    induction n generalizing cls with
    | zero =>
      rcases isSubclassWithin_zero.1 hb with rfl | ht
      · exact .self
      · exact .root ht
    | succ n ih =>
      rcases isSubclassWithin_succ.1 hb with rfl | ht | ⟨hcls, ht, c, m, hl, hm, hup⟩
      · exact .self
      · exact .root ht
      · exact .up hcls ht hl hm (ih hup)
  · intro hb
    obtain ⟨n, hn⟩ : ∃ n, h.isSubclassWithin n cls target = true := by
      induction hb with
      | self => exact ⟨0, isSubclassWithin_zero.2 (.inl rfl)⟩
      | root ht => exact ⟨0, isSubclassWithin_zero.2 (.inr ht)⟩
      | up hcls ht hl hm _ ih =>
        obtain ⟨n, hn⟩ := ih
        exact ⟨n + 1, isSubclassWithin_succ.2 (.inr (.inr ⟨hcls, ht, _, _, hl, hm, hn⟩))⟩
    exact isSubclassWithin_length hn

instance : Decidable (Below h target cls) := decidable_of_iff _ isSubclass_iff

end Hierarchy

/-! ## Selectors -/

namespace Env

variable {e : Env} {cls D : Text} {ref : MethodRef}

/-- The class whose method a reference denotes for a class: the first one on its chain that has a method of the name
and the descriptor. -/
def Selects (e : Env) (cls : Text) (ref : MethodRef) (D : Text) : Prop :=
  ∃ before after, e.classes.SuperChain cls (before ++ D :: after) ∧ e.has (methodKey D ref.name ref.desc) = true ∧
    ∀ E ∈ before, e.has (methodKey E ref.name ref.desc) = false

theorem append_selector (D : Text) (ref : MethodRef) : D ++ "." ++ ref.selector = methodKey D ref.name ref.desc := by
  unfold MethodRef.selector methodKey
  simp only [append_assoc]

/-- A selector is resolved to the method of the class that it denotes. -/
theorem resolve?_of_selects (hac : e.classes.Acyclic) (h : e.Selects cls ref D) :
    e.resolve? cls ref.selector = some (methodKey D ref.name ref.desc) := by
  obtain ⟨before, after, hc, hD, hbefore⟩ := h
  have hfind : (e.classes.chain cls).find? (fun c => e.has (c ++ "." ++ ref.selector)) = some D := by
    simp only [append_selector]
    rw [(Hierarchy.superChain_chain hac cls).unique hc, find?_eq_some_iff_append]
    exact ⟨hD, before, after, rfl, fun E hE => congrArg not (hbefore E hE)⟩
  rw [← append_selector]
  exact congrArg (Option.map _) hfind

/-- A selector that denotes no method is not resolved. -/
theorem resolve?_of_not_selects (hac : e.classes.Acyclic) (h : ∀ D, ¬ e.Selects cls ref D) :
    e.resolve? cls ref.selector = none := by
  unfold resolve?
  simp only [append_selector]
  rw [Option.map_eq_none_iff]
  cases hfind : (e.classes.chain cls).find? fun c => e.has (methodKey c ref.name ref.desc) with
  | none => rfl
  | some D =>
    obtain ⟨hD, before, after, heq, hbefore⟩ := find?_eq_some_iff_append.1 hfind
    refine absurd ⟨before, after, ?_, hD, fun E hE => by simpa using hbefore E hE⟩ (h D)
    rw [← heq]
    exact Hierarchy.superChain_chain hac cls

end Env

/-! ## Lookups -/

/-- The symbol of a method is cut behind its owner if the owner has no dot. -/
theorem cutAt_key {ref : MethodRef} (hdot : Text.byte '.' ∉ ref.owner) :
    Text.cutAt (Text.byte '.') ref.key = some (ref.owner, ref.selector) := by
  have hkey : ref.key = ref.owner ++ Text.byte '.' :: ref.selector := by
    unfold MethodRef.key methodKey MethodRef.selector
    simp only [append_assoc]
    rfl
  rw [hkey]
  exact Text.cutAt_append hdot

/-- The class of the error that a lookup of a method of an owner raises which finds none. -/
def missingClass (e : Env) (isInterface : Bool) (owner cls : Text) : Text :=
  if isInterface = true ∧ ¬ e.classes.Below owner cls then classChangeClass else abstractMethodClass

/-- **A lookup finds the method of the most derived class that has one, or it raises an error.** -/
theorem run_lookupMethod {ref : MethodRef} (hdot : Text.byte '.' ∉ ref.owner) {s : State} (hac : s.env.classes.Acyclic)
    (isInterface : Bool) (cls : Text) :
    (∀ D, s.env.Selects cls ref D →
      (lookupMethod isInterface ref.key cls).run s = (.ok (methodKey D ref.name ref.desc), s)) ∧
    ((∀ D, ¬ s.env.Selects cls ref D) → (lookupMethod isInterface ref.key cls).run s =
      (throwNew (missingClass s.env isInterface ref.owner cls)).run s) := by
  have hget : (get : RunM State).run s = (.ok s, s) := rfl
  unfold lookupMethod
  rw [cutAt_key hdot]
  rw [run_bind, hget]
  dsimp only
  refine ⟨fun D hD => ?_, fun hno => ?_⟩
  · rw [Env.resolve?_of_selects hac hD]
    rfl
  · rw [Env.resolve?_of_not_selects hac hno]
    unfold missingClass
    simp only [← Hierarchy.isSubclass_iff, Bool.and_eq_true, Bool.not_eq_true', Bool.not_eq_true]
    split <;> rfl

end Bytelift.Machine
