import Bytelift.Proofs.Code.Calls
import Bytelift.Proofs.Text.Lines
import Bytelift.Proofs.Traversals
import Bytelift.Source.Program

/-!
# Names in sources

A source is read line by line, and the names of its classes, members and types are tokens of its lines. So none of them
holds a line feed. Only string constants may: they are written with escapes.

Results:
* `parse_spelled`: **the names in the methods of a source hold no line feed.**
-/

namespace Bytelift

open List Text

variable {name owner : Text} {c : ClassRef}

/-! ## Names -/

structure FieldInfo.Spelled (f : FieldInfo) : Prop where
  owner : OneLine f.owner
  name : OneLine f.name

structure ClassRef.Spelled (c : ClassRef) : Prop where
  name : OneLine c.name
  fields : ∀ f ∈ c.fields, f.Spelled

/-- The names in a constant hold no line feed; a string may. -/
def Constant.Spelled : Constant → Prop
  | .cls c => c.Spelled
  | .method m => OneLine m.key
  | .field f => OneLine f.key
  | _ => True

/-- The names in a method hold no line feed. -/
structure Method.Spelled (m : Method) : Prop where
  key : OneLine m.key
  pool : ∀ c ∈ m.pool.entries, c.Spelled
  types : ∀ e ∈ m.exceptions, OneLine e.catchType

theorem oneLine_fieldKey (ho : OneLine owner) (hn : OneLine name) : OneLine (fieldKey owner name) := by
  simp +decide [fieldKey, ho, hn]

theorem oneLine_methodKey {desc : Text} (ho : OneLine owner) (hn : OneLine name) (hd : OneLine desc) :
    OneLine (methodKey owner name desc) := by
  simp +decide [methodKey, ho, hn, hd]

/-- The names that a call gives an assembler hold no line feed. -/
def Call.Spelled : Call → Prop
  | .invoke _ owner name desc => OneLine owner ∧ OneLine name ∧ OneLine desc
  | .field _ owner name _ => OneLine owner ∧ OneLine name
  | .classOp _ name | .multiArray name _ => OneLine name
  | .guardRange t => OneLine t.catchType
  | .declareClass c => c.Spelled
  | _ => True

/-! ## Assembling -/

namespace Assembler

/-- The names that an assembler has been given hold no line feed. -/
structure Spelled (a : Assembler) : Prop where
  owner : OneLine a.owner
  name : OneLine a.name
  desc : OneLine a.desc
  pool : ∀ c ∈ a.pool.entries, c.Spelled
  tries : ∀ t ∈ a.tries.toList, OneLine t.catchType
  classes : ∀ (name : Text) (c : ClassRef), a.classes[name]? = some c → c.Spelled

variable {a : Assembler}

namespace Spelled

variable (h : a.Spelled)
include h

theorem fail (e : AssemblyError) : (a.fail e).Spelled := { h with }

theorem emit (bs : List UInt8) : (a.emit bs).Spelled := { h with }

theorem locals (n : Int) : (a.locals n).Spelled := { h with }

theorem label (name : Text) : (a.label name).Spelled := by
  unfold Assembler.label
  split
  · exact h.fail _
  · exact { h with }

theorem reference (base : Nat) (isLong : Bool) (label : Text) : (a.reference base isLong label).Spelled := by
  have hfix : ({ a with fixups := a.fixups.push ⟨a.pos, base, isLong, label⟩ } : Assembler).Spelled :=
    { h with }
  unfold Assembler.reference
  extract_lets
  split <;> exact hfix.emit _

theorem intern (key : InternKey) {c : Constant} (hc : c.Spelled) : (a.intern key c).1.Spelled := by
  unfold Assembler.intern
  split
  · exact h
  · refine { h with pool := fun c' hc' => ?_ }
    rcases Array.mem_push.1 hc' with hc' | rfl
    · exact h.pool c' hc'
    · exact hc

theorem insert (hc : c.Spelled) : ({ a with classes := a.classes.insert name c } : Assembler).Spelled := by
  refine { h with classes := fun name' c' hc' => ?_ }
  rw [Std.HashMap.getElem?_insert] at hc'
  split at hc'
  · cases hc'
    exact hc
  · exact h.classes name' c' hc'

theorem layout (hc : c.Spelled) : (a.layout c).Spelled := by
  refine ⟨hc.name, fun f hf => ?_⟩
  rcases mem_append.1 hf with hf | hf
  · cases hsuper : a.classes[c.super]? with
    | none =>
      rw [hsuper] at hf
      cases hf
    | some super =>
      rw [hsuper] at hf
      exact (h.classes _ super hsuper).fields f hf
  · obtain ⟨g, hg, rfl⟩ := mem_map.1 hf
    split
    · exact ⟨hc.name, (hc.fields g hg).name⟩
    · exact hc.fields g hg

theorem declareClass (hc : c.Spelled) : (a.declareClass c).Spelled := h.insert (h.layout hc)

theorem classIndex (hname : OneLine name) : (a.classIndex name).1.Spelled := by
  unfold Assembler.classIndex Assembler.classRef
  cases hc : a.classes[name]? with
  | some c => exact h.intern _ (c := .cls c) (h.classes name c hc)
  | none =>
    have hnew : ({ name } : ClassRef).Spelled := ⟨hname, fun f hf => by cases hf⟩
    exact (h.insert hnew).intern _ (c := .cls _) hnew

theorem fieldOwner (howner : OneLine owner) : OneLine (a.fieldOwner owner name) := by
  unfold Assembler.fieldOwner
  split
  · exact howner
  · rename_i c hc
    cases hfind : c.fields.find? fun f => f.name == name with
    | none => exact howner
    | some f => exact ((h.classes owner c hc).fields f (mem_of_find?_eq_some hfind)).owner

theorem guardRange {t : TryEntry} (ht : OneLine t.catchType) : (a.guardRange t).Spelled := by
  refine { h with tries := fun t' ht' => ?_ }
  rcases Array.mem_push.1 (Array.mem_toList_iff.1 ht') with ht' | rfl
  · exact h.tries t' (Array.mem_toList_iff.2 ht')
  · exact ht

end Spelled

theorem Spelled.find {c : Call} (h : a.Spelled) (hc : c.Spelled) (b : Assembler) (hb : b.Spelled) : (b.find (c.wanted a)).1.Spelled := by
  cases c with
  | invoke op owner name desc => exact hb.intern _ (c := .method _) (oneLine_methodKey hc.1 hc.2.1 hc.2.2)
  | field op owner name desc => exact hb.intern _ (c := .field _) (oneLine_fieldKey (h.fieldOwner hc.1) hc.2)
  | classOp | multiArray => exact hb.classIndex hc
  | ldcInt | pushInt | ldcLong | ldcFloat | ldcDouble | ldcString => exact hb.intern _ trivial
  | _ => exact hb

/-- **A call keeps that names hold no line feed.** -/
theorem Spelled.apply {c : Call} (h : a.Spelled) (hc : c.Spelled) : (c.apply a).Spelled := by
  by_cases hemits : c.emits = true
  · exact Call.apply_keeps ⟨fun _ e ha => ha.fail e, fun _ n ha => ha.locals n, fun _ bs ha => ha.emit bs,
      fun _ base isLong l ha => ha.reference base isLong l⟩ hemits (h.find hc) h
  cases c with
  | label l => exact h.label l
  | guardRange t => exact h.guardRange hc
  | declareClass d => exact h.declareClass hc
  | locals n => exact h.locals n
  | stack n => exact { h with }
  | _ => exact absurd rfl hemits

theorem catchType_of_resolveTry {t : TryEntry} {e : ExceptionEntry} (h : a.resolveTry t = .ok e) :
    e.catchType = t.catchType := by
  obtain ⟨start, -, h⟩ := exists_of_bind_ok h
  obtain ⟨stop, -, h⟩ := exists_of_bind_ok h
  obtain ⟨handler, -, h⟩ := exists_of_bind_ok h
  cases h
  rfl

theorem Spelled.finish {m : Method} (h : a.Spelled) (hm : a.finish = .ok m) : m.Spelled := by
  obtain ⟨code, -, hm⟩ := exists_of_bind_ok hm
  obtain ⟨exceptions, hexceptions, hm⟩ := exists_of_bind_ok hm
  cases hm
  refine ⟨oneLine_methodKey h.owner h.name h.desc, h.pool, fun e he => ?_⟩
  obtain ⟨t, ht, hresolve⟩ := exists_of_mem_right (forall₂_of_mapM_ok hexceptions) he
  rw [catchType_of_resolveTry hresolve]
  exact h.tries t ht

/-- The names in a method that has been assembled are those that the assembler was given. -/
theorem Spelled.build {m : Method} (h : a.Spelled) (hm : a.build.2 = .ok m) : m.Spelled := by
  unfold Assembler.build at hm
  split at hm
  · cases hm
  · split at hm
    · cases hm
    · exact (h.locals _).finish hm

end Assembler

/-! ## Reading -/

namespace Source

variable {t : Text} {op : Opcode} {classes : List ClassRef}

/-- The token that is being read, backwards. -/
def LexState.rev : LexState → Text
  | .between => []
  | .word rev | .quoted rev | .escaped rev => rev

theorem oneLine_tokensFrom {st : LexState} {acc ts : List Text} (h : tokensFrom st t acc = some ts)
    (hst : OneLine st.rev) (ht : OneLine t) (hacc : ∀ x ∈ acc, OneLine x) : ∀ x ∈ ts, OneLine x := by
  have done {acc : List Text} (hacc : ∀ x ∈ acc, OneLine x) (h : some acc.reverse = some ts) : ∀ x ∈ ts, OneLine x := by
    cases h
    exact fun x hx => hacc x (mem_reverse.1 hx)
  have push {rev : Text} {acc : List Text} (hrev : OneLine rev) (hacc : ∀ x ∈ acc, OneLine x) :
      ∀ x ∈ rev.reverse :: acc, OneLine x := forall_mem_cons.2 ⟨hrev.reverse, hacc⟩
  fun_induction tokensFrom st t acc with
  | case1 acc | case5 t acc => exact done hacc h
  | case2 acc rev | case9 t acc rev => exact done (push hst hacc) h
  | case3 => cases h
  | case4 => cases h
  | case6 b t acc _ _ ih => exact ih h hst (oneLine_cons.1 ht).2 hacc
  | case7 t acc _ _ ih => exact ih h (by decide) (oneLine_cons.1 ht).2 hacc
  | case8 b t acc _ _ _ ih =>
    obtain ⟨hb, ht⟩ := oneLine_cons.1 ht
    exact ih h (oneLine_cons.2 ⟨hb, oneLine_nil⟩) ht hacc
  | case10 b t acc rev _ _ ih => exact ih h oneLine_nil (oneLine_cons.1 ht).2 (push hst hacc)
  | case11 b t acc rev _ _ ih | case13 t acc rev _ ih | case14 b t acc rev _ _ ih | case15 b t acc rev ih =>
    obtain ⟨hb, ht⟩ := oneLine_cons.1 ht
    exact ih h (oneLine_cons.2 ⟨hb, hst⟩) ht hacc
  | case12 t acc rev ih =>
    obtain ⟨hb, ht⟩ := oneLine_cons.1 ht
    exact ih h oneLine_nil ht (push (oneLine_cons.2 ⟨hb, hst⟩) hacc)

/-- **The tokens of a line hold no line feed.** -/
theorem oneLine_tokenize {l : Text} {ts : List Text} (h : tokenize l = some ts) (hl : OneLine l) : ∀ t ∈ ts, OneLine t :=
  oneLine_tokensFrom h oneLine_nil hl (by simp)

/-! ## Lines of a body -/

variable {a a' : Assembler} {head : Text} {args : List Text}

/-- The row of the exception table that a line stands for. -/
def lineRow? (head : Text) (args : List Text) : Option TryEntry :=
  if head = Text.ofString ".try" then
    match args with
    | [start, stop, handler, type] => some { start, stop, handler, catchType := if type = Text.ofString "any" then [] else type }
    | _ => none
  else if head = Text.ofString ".finally" then
    match args with
    | [start, stop, handler] => some { start, stop, handler, isCleanup := true }
    | _ => none
  else none

/-- A computation with some arguments makes one call, which adds a row, and whose names are from the arguments. -/
def Calls (a a' : Assembler) (args : List Text) (row : Option TryEntry) : Prop :=
  ∃ c : Call, a' = c.apply a ∧ c.row? = row ∧ ((∀ t ∈ args, OneLine t) → c.Spelled)

theorem calls_loadConstant (h : loadConstant a t = .ok a') : Calls a a' args none := by
  unfold loadConstant at h
  split at h
  · split at h
    · cases h
      exact ⟨.ldcString _, rfl, rfl, fun _ => trivial⟩
    · cases h
  split at h
  · split at h
    · cases h
      exact ⟨.ldcFloat _, rfl, rfl, fun _ => trivial⟩
    · cases h
  · split at h
    · cases h
      exact ⟨.ldcInt _, rfl, rfl, fun _ => trivial⟩
    · cases h

theorem calls_loadWide (h : loadWide a t = .ok a') : Calls a a' args none := by
  unfold loadWide at h
  split at h
  · split at h
    · cases h
      exact ⟨.ldcDouble _, rfl, rfl, fun _ => trivial⟩
    · cases h
  · split at h
    · cases h
      exact ⟨.ldcLong _, rfl, rfl, fun _ => trivial⟩
    · cases h

theorem oneLine_member (ht : OneLine t) (h : splitMember? t = some (owner, name)) : OneLine owner ∧ OneLine name := by
  unfold splitMember? at h
  split at h
  · rename_i hcut
    cases h
    exact ht.cutAtLast hcut
  · cases h

theorem calls_poolInstruction (h : poolInstruction a op args = .ok a') : Calls a a' args none := by
  have member {m owner name : Text} (hm : OneLine m) (hs : Source.member m = .ok (owner, name)) :
      OneLine owner ∧ OneLine name := by
    unfold Source.member at hs
    split at hs
    · rename_i hsplit
      cases hs
      exact oneLine_member hm hsplit
    · cases hs
  have of_classOp (op : Opcode) (t : Text) : Calls a (a.classOp op t) [t] none :=
    ⟨.classOp op t, rfl, rfl, fun hargs => hargs t (mem_singleton_self t)⟩
  unfold poolInstruction at h
  split at h
  iterate 2
    · split at h
      · exact calls_loadConstant h
      · cases h
  · split at h
    · exact calls_loadWide h
    · cases h
  · split at h
    · rename_i m desc
      obtain ⟨⟨owner, name⟩, hm, h⟩ := exists_of_bind_ok h
      cases h
      refine ⟨.invoke _ _ _ _, rfl, rfl, fun hargs => ?_⟩
      obtain ⟨ho, hn⟩ := member (hargs m (by simp)) hm
      exact ⟨ho, hn, hargs desc (by simp)⟩
    · cases h
  · split at h
    · rename_i m desc
      obtain ⟨⟨owner, name⟩, hm, h⟩ := exists_of_bind_ok h
      cases h
      exact ⟨.field (.field _) _ _ _, rfl, rfl, fun hargs => member (hargs m (by simp)) hm⟩
    · cases h
  iterate 4
    · split at h
      · cases h
        exact of_classOp _ _
      · cases h
  · obtain ⟨dims, -, h⟩ := exists_of_bind_ok h
    cases h
    refine ⟨.multiArray _ _, rfl, rfl, fun hargs => ?_⟩
    cases args with
    | nil => exact oneLine_nil
    | cons t ts => exact hargs t mem_cons_self
  · cases h

theorem calls_switchInstruction (h : switchInstruction a op args = .ok a') : Calls a a' args none := by
  unfold switchInstruction at h
  split at h
  · obtain ⟨low, -, h⟩ := exists_of_bind_ok h
    cases h
    exact ⟨.tableSwitch _ _ _, rfl, rfl, fun _ => trivial⟩
  · cases h
  · obtain ⟨arms, -, h⟩ := exists_of_bind_ok h
    cases h
    exact ⟨.lookupSwitch _ _ _, rfl, rfl, fun _ => trivial⟩
  · cases h
  · cases h

theorem calls_instruction (h : instruction a op args = .ok a') : Calls a a' args none := by
  unfold instruction at h
  split at h
  · cases h
    exact ⟨.plain _, rfl, rfl, fun _ => trivial⟩
  iterate 2
    · obtain ⟨v, -, h⟩ := exists_of_bind_ok h
      cases h
      exact ⟨.int _ _, rfl, rfl, fun _ => trivial⟩
  · split at h
    · obtain ⟨tag, -, h⟩ := exists_of_bind_ok h
      cases h
      exact ⟨.int _ _, rfl, rfl, fun _ => trivial⟩
    · cases h
  · obtain ⟨v, -, h⟩ := exists_of_bind_ok h
    cases h
    exact ⟨.localOp _ _, rfl, rfl, fun _ => trivial⟩
  · obtain ⟨index, -, h⟩ := exists_of_bind_ok h
    obtain ⟨delta, -, h⟩ := exists_of_bind_ok h
    cases h
    exact ⟨.iinc _ _, rfl, rfl, fun _ => trivial⟩
  iterate 2
    · split at h
      · cases h
        exact ⟨.branch _ _, rfl, rfl, fun _ => trivial⟩
      · cases h
  iterate 5 exact calls_poolInstruction h
  exact calls_switchInstruction h

/-- A directive makes one call, which adds the row of the line. -/
theorem calls_directive (h : directive? a head args = some (.ok a')) : Calls a a' args (lineRow? head args) := by
  unfold directive? at h
  split at h
  · rename_i hhead
    obtain ⟨n, -, h⟩ := exists_of_bind_ok (Option.some.inj h)
    cases h
    refine ⟨.locals n, rfl, ?_, fun _ => trivial⟩
    rw [hhead]
    rfl
  · split at h
    · rename_i hhead
      obtain ⟨n, -, h⟩ := exists_of_bind_ok (Option.some.inj h)
      cases h
      refine ⟨.stack n, rfl, ?_, fun _ => trivial⟩
      rw [hhead]
      rfl
    · unfold lineRow?
      split at h
      · rename_i hhead
        rw [if_pos hhead]
        split at h
        · rename_i start stop handler type
          cases h
          refine ⟨.guardRange _, rfl, rfl, fun hargs => ?_⟩
          change OneLine (if _ then _ else _)
          split
          · exact oneLine_nil
          · exact hargs type (by simp)
        · cases h
      · rename_i hhead
        rw [if_neg hhead]
        split at h
        · rename_i hhead
          rw [if_pos hhead]
          split at h
          · cases h
            exact ⟨.guardRange _, rfl, rfl, fun _ => oneLine_nil⟩
          · cases h
        · cases h

/-- A line that is no directive stands for no row. -/
theorem lineRow?_eq_none (h : directive? a head args = none) : lineRow? head args = none := by
  unfold directive? at h
  unfold lineRow?
  split at h
  · cases h
  split at h
  · cases h
  split at h
  · split at h <;> cases h
  rename_i hhead
  rw [if_neg hhead]
  split at h
  · split at h <;> cases h
  · rename_i hhead
    rw [if_neg hhead]

/-- **A line makes one call, which adds the row of the line.** -/
theorem calls_assembleLine (h : assembleLine a head args = .ok a') : Calls a a' args (lineRow? head args) := by
  unfold assembleLine at h
  split at h
  · rename_i hlabel
    cases h
    refine ⟨.label _, rfl, ?_, fun _ => trivial⟩
    rw [Bool.and_eq_true, List.isEmpty_iff] at hlabel
    rw [hlabel.2]
    unfold lineRow?
    split
    · rfl
    · split <;> rfl
  · split at h
    · rename_i hdirective
      exact calls_directive (hdirective.trans (congrArg some h))
    rename_i hdirective
    split at h
    · cases h
    · rw [lineRow?_eq_none hdirective]
      exact calls_instruction h

/-! ## Methods -/

/-- The tokens of the lines of a method hold no line feed. -/
structure MethodText.Spelled (m : MethodText) : Prop where
  header : ∀ t ∈ m.header, OneLine t
  body : ∀ l ∈ m.body, ∀ t ∈ l.args, OneLine t

theorem spelled_assembleBody (h : a.Spelled) {ls : List BodyLine} (hls : ∀ l ∈ ls, ∀ t ∈ l.args, OneLine t)
    (ha : assembleBody a ls = .ok a') : a'.Spelled := by
  induction ls generalizing a with
  | nil =>
    cases ha
    exact h
  | cons l ls ih =>
    obtain ⟨hl, hls⟩ := forall_mem_cons.1 hls
    unfold assembleBody at ha
    split at ha
    · cases ha
    rename_i a1 hline
    split at ha
    · cases ha
    · obtain ⟨c, rfl, -, hc⟩ := calls_assembleLine hline
      exact ih (h.apply (hc hl)) hls ha

theorem spelled_declareClasses (h : a.Spelled) (hc : ∀ c ∈ classes, c.Spelled) :
    (classes.foldl Assembler.declareClass a).Spelled := by
  induction classes generalizing a with
  | nil => exact h
  | cons c classes ih =>
    obtain ⟨hc, hclasses⟩ := forall_mem_cons.1 hc
    exact ih (h.declareClass hc) hclasses

theorem spelled_assembleMethod (hc : ∀ c ∈ classes, c.Spelled) {m : MethodText}
    (hm : m.Spelled) {method : Method} (h : assembleMethod classes m = .ok method) : method.Spelled := by
  unfold assembleMethod at h
  split at h
  rename_i isStatic header heq
  have hheader : ∀ t ∈ header, OneLine t := by
    refine fun t ht => hm.header t ?_
    cases hh : m.header with
    | nil =>
      rw [hh] at heq
      cases heq
      exact ht
    | cons first rest =>
      rw [hh] at heq
      dsimp only at heq
      split at heq
      · cases heq
        exact mem_cons_of_mem _ ht
      · cases heq
        exact ht
  split at h
  · rename_i symbol desc
    split at h
    · cases h
    rename_i owner name hsplit
    obtain ⟨ho, hn⟩ := oneLine_member (hheader symbol (by simp)) hsplit
    obtain ⟨a, ha, h⟩ := exists_of_bind_ok h
    have hstart : ({ owner, name, desc, isStatic } : Assembler).Spelled :=
      ⟨ho, hn, hheader desc (by simp), by simp, by simp, by simp⟩
    have hbody : ∀ l ∈ m.body.reverse, ∀ t ∈ l.args, OneLine t := fun l hl => hm.body l (mem_reverse.1 hl)
    have hbuilt := spelled_assembleBody (spelled_declareClasses hstart hc) hbody ha
    split at h
    · cases h
    · rename_i method' hbuild
      cases h
      exact hbuilt.build hbuild
  · cases h

/-! ## Sources -/

/-- What has been read of a source holds no line feed. -/
structure Reading.Spelled (r : Reading) : Prop where
  classes : ∀ c ∈ r.classes, c.Spelled
  methods : ∀ m ∈ r.methods, m.Spelled
  current : ∀ m, r.current = some m → m.Spelled

variable {r r' : Reading}

theorem spelled_classHeaderFrom {c' : ClassRef} (hc : c.Spelled) (h : classHeaderFrom c args = .ok c') : c'.Spelled := by
  fun_induction classHeaderFrom c args with
  | case1 c =>
    cases h
    exact hc
  | case2 => cases h
  | case3 c super rest ih => exact ih ⟨hc.name, hc.fields⟩ h
  | case4 c ts _ =>
    cases h
    exact ⟨hc.name, hc.fields⟩
  | case5 => cases h

theorem spelled_addField {desc : Text} (hc : ∀ c ∈ classes, c.Spelled) (hname : OneLine name) :
    ∀ c ∈ addField classes name desc, c.Spelled := by
  cases classes with
  | nil => simp [addField]
  | cons c classes =>
    obtain ⟨hfirst, hc⟩ := forall_mem_cons.1 hc
    refine forall_mem_cons.2 ⟨⟨hfirst.name, fun f hf => ?_⟩, hc⟩
    rcases mem_append.1 hf with hf | hf
    · exact hfirst.fields f hf
    · rw [mem_singleton.1 hf]
      exact ⟨oneLine_nil, hname⟩

theorem spelled_readLine {n : Nat} (hr : r.Spelled) (hargs : ∀ t ∈ args, OneLine t)
    (h : readLine r n head args = .ok r') : r'.Spelled := by
  unfold readLine at h
  split at h
  · split at h
    · cases h
    obtain ⟨c, hc, h⟩ := exists_of_bind_ok h
    cases h
    refine ⟨forall_mem_cons.2 ⟨?_, hr.classes⟩, hr.methods, hr.current⟩
    cases args with
    | nil => cases hc
    | cons name ts =>
      exact spelled_classHeaderFrom ⟨hargs name mem_cons_self, fun f hf => by cases hf⟩ hc
  · split at h
    · split at h
      · rename_i name desc _ _
        split at h
        · cases h
        · cases h
          exact ⟨spelled_addField hr.classes (hargs name (by simp)), hr.methods, hr.current⟩
      · cases h
    · split at h
      · split at h
        · cases h
        · cases h
          refine ⟨hr.classes, hr.methods, fun m hm => ?_⟩
          cases hm
          exact ⟨hargs, by simp⟩
      · split at h
        · split at h
          · cases h
          · rename_i m hm
            cases h
            exact ⟨hr.classes, forall_mem_cons.2 ⟨hr.current m hm, hr.methods⟩, fun m hm => by cases hm⟩
        split at h
        · cases h
        rename_i m hm
        cases h
        refine ⟨hr.classes, hr.methods, fun m' hm' => ?_⟩
        cases hm'
        exact ⟨(hr.current m hm).header, forall_mem_cons.2 ⟨hargs, (hr.current m hm).body⟩⟩

theorem spelled_readLines {n : Nat} {ls : List Text} (hr : r.Spelled) (hls : ∀ l ∈ ls, OneLine l)
    (h : readLines n r ls = .ok r') : r'.Spelled := by
  induction ls generalizing n r with
  | nil =>
    cases h
    exact hr
  | cons l ls ih =>
    obtain ⟨hl, hls⟩ := forall_mem_cons.1 hls
    unfold readLines at h
    split at h
    · cases h
    · exact ih hr hls h
    · rename_i head args htokens
      split at h
      · cases h
      · rename_i r1 hline
        have hargs := (forall_mem_cons.1 (oneLine_tokenize htokens hl)).2
        exact ih (spelled_readLine hr hargs hline) hls h

theorem parse_eq_ok {source : Text} {p : Program} (h : parse source = .ok p) :
    ∃ r, source.lines.tooLong = false ∧ readLines 1 {} source.lines.lines = .ok r ∧
      r.methods.reverse.mapM (assembleMethod r.classes.reverse) = .ok p.methods ∧ p.classes = layouts r.classes.reverse := by
  obtain ⟨r, hread, h⟩ := exists_of_bind_ok h
  cases htoo : source.lines.tooLong with
  | true =>
    rw [htoo] at h
    cases h
  | false =>
    rw [htoo] at h
    cases hcurrent : r.current with
    | some m =>
      rw [hcurrent] at h
      cases h
    | none =>
      rw [hcurrent] at h
      obtain ⟨methods, hm, h⟩ := exists_of_bind_ok h
      obtain rfl := Except.ok.inj h
      exact ⟨r, rfl, hread, hm, rfl⟩

/-- **The names in the methods of a source hold no line feed.** -/
theorem parse_spelled {source : Text} {program : Program} (h : parse source = .ok program) :
    ∀ m ∈ program.methods, m.Spelled := by
  obtain ⟨r, -, hread, hm, -⟩ := parse_eq_ok h
  have hr : r.Spelled :=
    spelled_readLines ⟨by simp, by simp, by simp⟩ (fun l hl => oneLine_of_mem_lines hl) hread
  intro m hmem
  obtain ⟨mt, hmt, hmethod⟩ := exists_of_mem_right (forall₂_of_mapM_ok hm) hmem
  refine spelled_assembleMethod (fun c hc => hr.classes c (mem_reverse.1 hc)) ?_ hmethod
  exact hr.methods mt (mem_reverse.1 hmt)

end Source

end Bytelift
