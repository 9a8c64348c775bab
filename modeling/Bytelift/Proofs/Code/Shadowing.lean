import Bytelift.Proofs.Code.Pieces
import Mathlib.Data.List.Induction

/-!
# Fields along the superclass chain

The layout of a declared class lists the fields of its superclasses from the top of the chain down and its own fields last. A reference
to a field takes the owner of the first field with its name, so it belongs to the uppermost class that declares the name. This is the
nearest one just if no class above that declares the name too: a field that shadows an inherited one cannot be referred to.

Results:
* `Assembler.fieldIndex_owner_iff`: **a reference leads to a declaration, the nearest one too, exactly if it shadows no other.**
-/

namespace Bytelift

open List

namespace ClassRef

/-- A class declares a field itself. -/
def Declares (c : ClassRef) (x : Text) : Prop := ∃ f ∈ c.fields, f.name = x

/-- The fields that a class declares belong to it. -/
def Owned (c : ClassRef) : Prop := ∀ f ∈ c.fields, f.owner = [] ∨ f.owner = c.name

/-- The fields of a class with their owners. -/
def owned (c : ClassRef) : List FieldInfo := c.fields.map fun f => if f.owner.isEmpty then { f with owner := c.name } else f

/-- The declared classes from one on upwards, each followed by its superclass. -/
inductive Chain (ds : List ClassRef) : Text → List ClassRef → Prop
  | top {name} (h : ∀ d ∈ ds, d.name ≠ name) : Chain ds name []
  | up {c cs} (hc : c ∈ ds) (h : Chain ds c.super cs) : Chain ds c.name (c :: cs)

/-- Every class is declared once, and its superclass in front of it if at all. -/
structure Ordered (ds : List ClassRef) : Prop where
  once : (ds.map (·.name)).Nodup
  proper : ∀ c ∈ ds, c.super ≠ c.name
  behind : ds.Pairwise fun c d => c.super ≠ d.name

variable {ds cs : List ClassRef} {c d : ClassRef} {name x : Text}

section

variable (h : Ordered (ds ++ [c]))

include h

theorem Ordered.init : Ordered ds where
  once := by
    have hall := h.once
    rw [map_append] at hall
    exact (nodup_append.1 hall).1
  proper d hd := h.proper d (mem_append_left _ hd)
  behind := (pairwise_append.1 h.behind).1

theorem Ordered.name_ne (hd : d ∈ ds) : d.name ≠ c.name := by
  have hdis := h.once
  rw [map_append, nodup_append] at hdis
  exact hdis.2.2 _ (mem_map_of_mem hd) _ (by simp)

theorem Ordered.super_ne (hd : d ∈ ds) : d.super ≠ c.name :=
  (pairwise_append.1 h.behind).2.2 d hd c (mem_singleton_self c)

/-- The chains of the classes before do not pass through a new one. -/
theorem chain_snoc (hne : name ≠ c.name) : Chain (ds ++ [c]) name cs ↔ Chain ds name cs := by
  constructor
  · intro hchain
    induction hchain with
    | top hno => exact .top fun d hd => hno d (mem_append_left _ hd)
    | @up d cs hd _ ih =>
      have hd : d ∈ ds := (mem_append.1 hd).resolve_right fun hd => hne (congrArg _ (mem_singleton.1 hd))
      exact .up hd (ih (h.super_ne hd))
  · intro hchain
    induction hchain with
    | top hno =>
      refine .top fun d hd => ?_
      rcases mem_append.1 hd with hd | hd
      · exact hno d hd
      · exact mem_singleton.1 hd ▸ hne.symm
    | up hd _ ih => exact .up (mem_append_left _ hd) (ih (h.super_ne hd))

/-- The chain of a new class is the class and the chain of its superclass. -/
theorem chain_last : Chain (ds ++ [c]) c.name cs ↔ ∃ cs', cs = c :: cs' ∧ Chain ds c.super cs' := by
  have hlast : c ∈ ds ++ [c] := mem_append_right _ (mem_singleton_self c)
  constructor
  · generalize hname : c.name = name
    rintro (hno | ⟨hd, hchain⟩)
    · exact absurd hname (hno c hlast)
    rename_i d cs
    rcases mem_append.1 hd with hd | hd
    · exact absurd hname.symm (h.name_ne hd)
    · obtain rfl := mem_singleton.1 hd
      exact ⟨cs, rfl, (chain_snoc h (h.proper d hlast)).1 hchain⟩
  · rintro ⟨cs', rfl, hchain⟩
    exact .up hlast ((chain_snoc h (h.proper c hlast)).2 hchain)

end

theorem exists_chain (h : Ordered ds) (name : Text) : ∃ cs, Chain ds name cs := by
  induction ds using List.reverseRecOn generalizing name with
  | nil => exact ⟨[], .top (by simp)⟩
  | append_singleton ds c ih =>
    by_cases hname : name = c.name
    · obtain ⟨cs, hcs⟩ := ih h.init c.super
      exact ⟨c :: cs, hname ▸ (chain_last h).2 ⟨cs, rfl, hcs⟩⟩
    · obtain ⟨cs, hcs⟩ := ih h.init name
      exact ⟨cs, (chain_snoc h hname).2 hcs⟩

/-- The classes of a chain are declared and have different names. -/
theorem Chain.distinct (hchain : Chain ds name cs) (h : Ordered ds) : (∀ d ∈ cs, d ∈ ds) ∧ cs.Pairwise fun d e => e.name ≠ d.name := by
  induction ds using List.reverseRecOn generalizing name cs with
  | nil =>
    cases hchain with
    | top => simp
    | up hc => cases hc
  | append_singleton ds c ih =>
    by_cases hname : name = c.name
    · subst hname
      obtain ⟨cs, rfl, habove⟩ := (chain_last h).1 hchain
      obtain ⟨hsub, hdis⟩ := ih habove h.init
      refine ⟨fun d hd => ?_, pairwise_cons.2 ⟨fun d hd => h.name_ne (hsub d hd), hdis⟩⟩
      rcases mem_cons.1 hd with rfl | hd
      · exact mem_append_right _ (mem_singleton_self d)
      · exact mem_append_left _ (hsub d hd)
    · obtain ⟨hsub, hdis⟩ := ih ((chain_snoc h hname).1 hchain) h.init
      exact ⟨fun d hd => mem_append_left _ (hsub d hd), hdis⟩

/-- The owner of the first field with a name, from the top of a chain down. -/
def topOwner (cs : List ClassRef) (x : Text) : Option Text :=
  ((cs.reverse.flatMap owned).find? fun f => f.name == x).map (·.owner)

theorem topOwner_append (cs cs' : List ClassRef) (x : Text) : topOwner (cs ++ cs') x = (topOwner cs' x).or (topOwner cs x) := by
  simp [topOwner, find?_append, Option.map_or]

theorem topOwner_singleton (hc : c.Owned) :
    topOwner [c] x = none ∧ ¬ c.Declares x ∨ topOwner [c] x = some c.name ∧ c.Declares x := by
  rw [topOwner, reverse_singleton, flatMap_singleton]
  cases hf : c.owned.find? fun f => f.name == x with
  | none =>
    refine .inl ⟨rfl, fun ⟨f, hf', hx⟩ => find?_eq_none.1 hf _ (mem_map_of_mem hf') ?_⟩
    split <;> simpa using hx
  | some f =>
    obtain ⟨g, hg, rfl⟩ := mem_map.1 (mem_of_find?_eq_some hf)
    have hx := find?_some hf
    refine .inr ⟨?_, g, hg, ?_⟩
    · rcases hc g hg with ho | ho <;> simp only [ho] <;> split <;> simp_all
    · split at hx <;> simpa using hx

theorem topOwner_cases (hown : ∀ c ∈ cs, c.Owned) :
    topOwner cs x = none ∧ (∀ c ∈ cs, ¬ c.Declares x) ∨ ∃ c ∈ cs, c.Declares x ∧ topOwner cs x = some c.name := by
  induction cs with
  | nil => exact .inl ⟨rfl, by simp⟩
  | cons c cs ih =>
    obtain ⟨hc, hcs⟩ := forall_mem_cons.1 hown
    rw [← singleton_append, topOwner_append]
    rcases ih hcs with ⟨hnone, hno⟩ | ⟨d, hd, hx, htop⟩
    · rw [hnone, Option.none_or]
      rcases topOwner_singleton hc with ⟨hnone, hx⟩ | ⟨htop, hx⟩
      · exact .inl ⟨hnone, forall_mem_cons.2 ⟨hx, hno⟩⟩
      · exact .inr ⟨c, mem_cons_self, hx, htop⟩
    · rw [htop]
      exact .inr ⟨d, mem_cons_of_mem _ hd, hx, rfl⟩

end ClassRef

namespace Assembler

open ClassRef

variable {a : Assembler} {ds cs : List ClassRef} {name x : Text}

/-- **The layout of a class lists the fields along its chain, from the top down.** -/
theorem layout_declared (hnew : ∀ name : Text, a.classes[name]? = none) (h : Ordered ds) (hchain : Chain ds name cs) :
    ((ds.foldl declareClass a).classes[name]?.map (·.fields)).getD [] = cs.reverse.flatMap owned := by
  induction ds using List.reverseRecOn generalizing name cs with
  | nil =>
    cases hchain with
    | top => simp [hnew]
    | up hc => cases hc
  | append_singleton ds c ih =>
    rw [foldl_append, foldl_cons, foldl_nil, declareClass, Std.HashMap.getElem?_insert]
    by_cases hname : name = c.name
    · subst hname
      obtain ⟨cs, rfl, habove⟩ := (chain_last h).1 hchain
      simp [layout, ih h.init habove, owned]
    · rw [if_neg (by simpa using Ne.symm hname)]
      exact ih h.init ((chain_snoc h hname).1 hchain)

theorem fieldOwner_declared (hnew : ∀ name : Text, a.classes[name]? = none) (h : Ordered ds) (hchain : Chain ds name cs) (x : Text) :
    (ds.foldl declareClass a).fieldOwner name x = (topOwner cs x).getD name := by
  rw [topOwner, ← layout_declared hnew h hchain, fieldOwner]
  cases (ds.foldl declareClass a).classes[name]? <;> rfl

theorem interned_declared (ds : List ClassRef) (a : Assembler) : (ds.foldl declareClass a).interned = a.interned := by
  induction ds generalizing a with
  | nil => rfl
  | cons c ds ih => exact ih _

/-- The constant of a reference to a field, with the index that a call for it returns. -/
def FieldAt (a : Assembler) (owner x desc : Text) (ref : FieldRef) : Prop :=
  (a.fieldIndex owner x desc).1.pool.entry (a.fieldIndex owner x desc).2 = .ok (.field ref)

theorem fieldAt_declared (hnew : ∀ name : Text, a.classes[name]? = none) (hpool : ∀ key : InternKey, a.interned[key]? = none)
    (h : Ordered ds) (hchain : Chain ds name cs) (x desc : Text) :
    (ds.foldl declareClass a).FieldAt name x desc ⟨(topOwner cs x).getD name, x, desc⟩ := by
  unfold FieldAt fieldIndex intern
  dsimp only
  rw [fieldOwner_declared hnew h hchain, interned_declared, hpool]
  exact entry_push_size _ rfl

/-- **A reference leads to a declaration of its field, the nearest one too, exactly if no class above declares the name.** -/
theorem fieldIndex_owner_iff (hnew : ∀ name : Text, a.classes[name]? = none) (hpool : ∀ key : InternKey, a.interned[key]? = none)
    (h : Ordered ds) (hown : ∀ c ∈ ds, c.Owned) (name x desc : Text) :
    (∃ cs, Chain ds name cs) ∧ ∀ (below : List ClassRef) (n : ClassRef) (above : List ClassRef),
      Chain ds name (below ++ n :: above) → n.Declares x →
        ∃ ref, (ds.foldl declareClass a).FieldAt name x desc ref ∧ ref.name = x ∧ ref.desc = desc ∧
          (ref.owner = n.name ↔ ∀ d ∈ above, ¬ d.Declares x) := by
  refine ⟨exists_chain h name, fun below n above hchain hn => ⟨_, fieldAt_declared hnew hpool h hchain x desc, rfl, rfl, ?_⟩⟩
  obtain ⟨hsub, hdis⟩ := hchain.distinct h
  have hown : ∀ d ∈ n :: above, d.Owned := fun d hd => hown d (hsub d (List.mem_append_right _ hd))
  obtain ⟨hlast, habove⟩ := List.forall_mem_cons.1 hown
  rw [← List.singleton_append (l := above), topOwner_append, topOwner_append]
  -- the uppermost declaration is above the nearest one, or it is the nearest one
  rcases topOwner_cases (x := x) habove with ⟨hnone, hno⟩ | ⟨d, hd, hx, htop⟩
  · rw [hnone, Option.none_or]
    rcases topOwner_singleton (x := x) hlast with ⟨-, hx⟩ | ⟨htop, -⟩
    · exact absurd hn hx
    · rw [htop]
      exact iff_of_true rfl hno
  · rw [htop]
    refine iff_of_false ?_ fun hno => hno d hd hx
    exact (List.pairwise_cons.1 (List.pairwise_append.1 hdis).2.1).1 d hd

/-- A class with a field `x`. -/
def upper : ClassRef := ⟨[65], [], [], [⟨[], [120], [73]⟩]⟩

/-- A class under it with a field of its own. -/
def lower (field : Text) : ClassRef := ⟨[66], [65], [], [⟨[], field, [73]⟩]⟩

/-- The assembler of a method without code. -/
def fresh : Assembler := { owner := [84], name := [109], desc := [40, 41, 86], isStatic := true }

/-- The assembler with both classes. -/
def paired (field : Text) : Assembler := [upper, lower field].foldl declareClass fresh

theorem paired_ordered (field : Text) : Ordered [upper, lower field] :=
  ⟨by simp [upper, lower], by simp [upper, lower], by simp [upper, lower]⟩

theorem chain_upper (field : Text) : Chain [upper, lower field] [65] [upper] :=
  .up (c := upper) (by simp) (.top (by simp [upper, lower]))

theorem chain_lower (field : Text) : Chain [upper, lower field] [66] [lower field, upper] :=
  .up (c := lower field) (by simp) (chain_upper field)

/-- A field that the upper class alone declares is found from the lower one. -/
theorem inheritedField_nearest : ∃ ref, (paired [121]).FieldAt [66] [120] [73] ref ∧ ref.owner = [65] := by
  obtain ⟨ref, href, -, -, howner⟩ := (fieldIndex_owner_iff (a := fresh) (by simp [fresh]) (by simp [fresh]) (paired_ordered [121])
    (by simp [Owned, upper, lower]) [66] [120] [73]).2 [lower [121]] upper [] (chain_lower [121]) ⟨_, List.mem_singleton_self _, rfl⟩
  exact ⟨ref, href, howner.2 (by simp)⟩

/-- Where both declare it, the references from both classes lead to the field of the upper one. -/
theorem shadowingField_unreachable : (paired [120]).FieldAt [65] [120] [73] ⟨[65], [120], [73]⟩ ∧
    (paired [120]).FieldAt [66] [120] [73] ⟨[65], [120], [73]⟩ :=
  ⟨fieldAt_declared (by simp [fresh]) (by simp [fresh]) (paired_ordered [120]) (chain_upper [120]) [120] [73],
    fieldAt_declared (by simp [fresh]) (by simp [fresh]) (paired_ordered [120]) (chain_lower [120]) [120] [73]⟩

end Assembler
end Bytelift
