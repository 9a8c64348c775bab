import Bytelift.Proofs.Ir.Labels
import Bytelift.Proofs.Ir.Reading
import Bytelift.Proofs.Lift.Sites
import Bytelift.Proofs.Lift.Twins
import Bytelift.Proofs.Source.Assembly
import Bytelift.Proofs.Source.Spelling

/-!
# Listings of lifted methods

A lifted module can be written line by line if the names in its method hold no line feed, as those of a source do. The
labels of its blocks are numbered bcis, no two of them the same, and only the label of a landingpad reads like one. So the
exception topology of the module is read from its listing, unless an instruction or the type of a clause imitates
something else: a string constant may end like an unwind edge, and a quoted type may hold a blank.

Results:
* `liftMethod_topology`: **the topology of a lifted module is read from its listing just if the module is legible and
  honest.**
-/

namespace Bytelift

namespace Lift

open Ir List Text Module Builder Assembler Number

variable {cx : Context} {F : Prop} {s s' : State} {t u label : Text} {bci : Int} {kind : BlockKind}
  {b : BlockId} {k : Block}

/-! ## Labels -/

/-- A text of visible ASCII characters other than the dot, which numbers labels that are asked for again. -/
def Undotted (t : Text) : Prop := ∀ b ∈ t, 33 ≤ b ∧ b ≤ 126 ∧ b ≠ 46

instance (t : Text) : Decidable (Undotted t) := List.decidableBAll _ t

theorem Undotted.append (ht : Undotted t) (hu : Undotted u) : Undotted (t ++ u) :=
  forall_mem_append.2 ⟨ht, hu⟩

theorem undotted_ofNat (n : Nat) : Undotted (ofNat n) := by
  intro b hb
  have hdigit := isDigit_of_mem_ofNat hb
  simp only [isDigit, Bool.and_eq_true, decide_eq_true_eq, UInt8.le_iff_toNat_le] at hdigit
  refine ⟨?_, ?_, ?_⟩
  · exact UInt8.le_iff_toNat_le.2 (Nat.le_trans (by decide) hdigit.1)
  · exact UInt8.le_iff_toNat_le.2 (Nat.le_trans hdigit.2 (by decide))
  · rintro rfl
    exact absurd hdigit.1 (by decide)

theorem undotted_ofInt (n : Int) : Undotted (ofInt n) := by
  cases n with
  | ofNat n => exact undotted_ofNat n
  | negSucc n => exact forall_mem_cons.2 ⟨by decide, undotted_ofNat _⟩

theorem undotted_bciLabel (bci : Int) (ht : Undotted t) : Undotted (bciLabel bci t) :=
  (Undotted.append (by decide) (undotted_ofInt bci)).append ht

theorem Labelled.undotted (h : Labelled bci kind label) : Undotted label ∧ ∃ b l, label = b :: l ∧ b ≠ 59 := by
  cases h with
  | entry | «return» => exact ⟨by decide, _, _, rfl, by decide⟩
  | code | leave | «continue» | resume | pad => exact ⟨undotted_bciLabel bci (by decide), _, _, rfl, by decide⟩
  | cleanup n | «catch» n => exact ⟨undotted_bciLabel bci (.append (by decide) (undotted_ofNat n)), _, _, rfl, by decide⟩
  | loop n part hpart =>
    have hpart : Undotted part := by rcases hpart with rfl | rfl | rfl <;> decide
    exact ⟨undotted_bciLabel bci (.append (.append (by decide) (undotted_ofNat n)) hpart), _, _, rfl, by decide⟩

theorem Labelled.plain (h : Labelled bci kind label) (n : Nat) : PlainLabel (numbered n label) := by
  obtain ⟨hplain, c, l, rfl, hc⟩ := h.undotted
  rw [numbered_eq]
  refine ⟨by simp, forall_mem_append.2 ⟨fun b hb => ⟨(hplain b hb).1, (hplain b hb).2.1⟩, ?_⟩, ?_⟩
  · split
    · simp
    · exact forall_mem_cons.2 ⟨by decide, fun b hb => ⟨(undotted_ofNat n b hb).1, (undotted_ofNat n b hb).2.1⟩⟩
  · exact fun hhead => hc (Option.some.inj hhead)

/-! ## What is written -/

/-- The texts in a module that is being lifted. -/
structure Written (cx : Context) (s : State) : Prop where
  method : s.mod.method = cx.method.key
  temps : ∀ t ∈ s.mod.temps.toList, Reserved t
  inst : ∀ v i, s.mod.inst? v = some i → Emitted cx i ∧ 0 ≤ i.slot.index
  selectors : ∀ r ∈ s.regions, 0 ≤ r.selector.index
  asked : ∀ l ∈ s.builder.requested, Undotted l
  labels : s.builder.labels = given s.builder.requested
  block : ∀ b k, s.mod.block? b = some k → ∃ bci l n, Labelled bci k.kind l ∧ k.label = numbered n l

namespace Written

theorem hasSlot (h : Written cx s) {slot : Slot} (hs : s.HasSlot slot) : 0 ≤ slot.index := by
  rcases hs with hs | ⟨r, hr, rfl⟩
  · exact hs
  · exact h.selectors r hr

/-- **Every step of a lifting keeps what is written.** -/
theorem change (h : Written cx s) (hc : Change cx F s s') : Written cx s' := by
  cases hc with
  | newBlock hl =>
    refine { h with
      asked := forall_mem_cons.2 ⟨hl.undotted.1, h.asked⟩
      labels := (labels_newBlock ..).trans (congrArg _ h.labels)
      block := fun c k hk => ?_ }
    replace hk := (block?_newBlock ..).symm.trans hk
    split at hk
    · cases hk
      exact ⟨_, _, _, hl, rfl⟩
    · exact h.block c k hk
  | @temp name hname =>
    unfold Builder.temp
    split
    · exact h
    · refine { h with temps := fun t ht => ?_ }
      rcases Array.mem_push.1 (Array.mem_toList_iff.1 ht) with ht | rfl
      · exact h.temps t (Array.mem_toList_iff.2 ht)
      · exact hname
  | @emit b i hi hslot =>
    refine ⟨?_, ?_, fun v j hj => ?_, h.selectors, h.asked, (labels_emit ..).trans h.labels, fun c k hk => ?_⟩
    · exact (congrArg Header.method (s.builder.header_emit b i)).trans h.method
    · exact (s.builder.temps_emit b i) ▸ h.temps
    · change (s.builder.emit b i).2.mod.inst? v = some j at hj
      rw [inst?_emit] at hj
      split at hj
      · cases hj
        exact ⟨{ hi with }, h.hasSlot hslot⟩
      · exact h.inst v j hj
    · change (s.builder.emit b i).2.mod.block? c = some k at hk
      rw [block?_emit] at hk
      split at hk
      · obtain ⟨k', hk', rfl⟩ := Option.map_eq_some_iff.1 hk
        exact h.block c k' hk'
      · exact h.block c k hk
  | @block b f hf =>
    refine ⟨?_, ?_, fun v j hj => ?_, h.selectors, h.asked, (labels_modifyBlock _ b fun k => (hf k).1).trans h.labels,
      fun c k hk => ?_⟩
    · exact (congrArg Header.method (header_modifyBlock _ b f)).trans h.method
    · exact (temps_modifyBlock s.builder.mod b f) ▸ h.temps
    · exact h.inst v j ((inst?_modifyBlock _ b f v).symm.trans hj)
    · replace hk := (block?_modifyBlock _ b f c).symm.trans hk
      split at hk
      · obtain ⟨k', hk', rfl⟩ := Option.map_eq_some_iff.1 hk
        rw [(hf k').1, (hf k').2.2.1]
        exact h.block c k' hk'
      · exact h.block c k hk
  | @header f hf =>
    obtain ⟨hblocks, hinsts, htemps, hmethod⟩ := hf s.builder.mod
    refine ⟨hmethod.trans h.method, htemps ▸ h.temps, ?_, h.selectors, h.asked, ?_, ?_⟩
    · intro v i hi
      unfold inst? at hi
      rw [hinsts] at hi
      exact h.inst v i hi
    · exact (congrArg (fun bs : Array Block => (bs.toList.map Block.label).reverse) hblocks).trans h.labels
    · intro b k hk
      unfold block? at hk
      rw [hblocks] at hk
      exact h.block b k hk
  | regions hrs => exact { h with selectors := fun r hr => h.hasSlot ((hrs _).1 (.inr ⟨r, hr, rfl⟩)) }
  | _ => exact { h with }

theorem changes (h : Written cx s) (hc : Changes cx F s s') : Written cx s' := by
  induction hc with
  | refl => exact h
  | tail _ hc ih => exact ih.change hc

theorem initial (cx : Context) : Written cx { builder := new cx.method.key } where
  method := rfl
  temps := by simp [State.mod, new]
  inst := fun v i hi => absurd (inst?_lt hi).2 (Int.not_lt.2 (inst?_lt hi).1)
  selectors := by simp
  asked := nofun
  labels := rfl
  block := fun b k hk => absurd (block?_lt hk).2 (Int.not_lt.2 (block?_lt hk).1)

/-- **No two blocks have the same label.** -/
theorem distinct (h : Written cx s) : (s.mod.blocks.toList.map (·.label)).Nodup := by
  rw [← nodup_reverse]
  change s.builder.labels.Nodup
  rw [h.labels, nodup_given_iff]
  intro l _ n _ hn hmem
  exact (h.asked _ hmem 46 (by simp +decide)).2.2 rfl

end Written

/-! ## Labels of landingpads -/

theorem takeWhile_ofNat (n : Nat) (ht : ∀ b ∈ t.head?, isDigit b = false) :
    (ofNat n ++ t).takeWhile isDigit = ofNat n :=
  takeWhile_append_of_head (fun _ hb => isDigit_of_mem_ofNat hb) ht

theorem after?_bciLabel (bci : Int) (t : Text) : after? "bci_" (bciLabel bci t) = some (ofInt bci ++ t) := by
  unfold bciLabel
  rw [append_assoc]
  exact after?_append _ _

theorem padBci?_padLabel {c : Int} (h0 : 0 ≤ c) (hc : c < 2 ^ 63) : Topology.padBci? (padLabel c) = some c := by
  obtain ⟨n, rfl⟩ := Int.eq_ofNat_of_zero_le h0
  unfold Topology.padBci? padLabel
  rw [after?_bciLabel]
  have htake : (ofInt n ++ "_unwind_dest").takeWhile isDigit = ofNat n := takeWhile_ofNat n (by rintro _ ⟨⟩; rfl)
  have hdrop : (ofInt n ++ "_unwind_dest").drop (ofNat n).length = "_unwind_dest" := drop_left
  change (if _ then none else _) = _
  rw [htake, hdrop, if_neg (by simp [ofNat_ne_nil]), value_ofNat, Nat.min_eq_left]
  have hpow : Nat.pow 2 63 = 2 ^ 63 := rfl
  omega

/-- The labels of other blocks are not read as those of landingpads. -/
theorem padBci?_bciLabel (bci : Int) (hd : ∀ b ∈ t.head?, isDigit b = false) (ht : t ≠ ofString "_unwind_dest") :
    Topology.padBci? (bciLabel bci t) = none := by
  unfold Topology.padBci?
  rw [after?_bciLabel]
  refine if_pos ?_
  cases bci with
  | ofNat n =>
    have htake : (ofInt (.ofNat n) ++ t).takeWhile isDigit = ofNat n := takeWhile_ofNat n hd
    rw [htake]
    refine .inr ?_
    change (ofNat n ++ t).drop _ ≠ _
    rw [drop_left]
    exact ht
  | negSucc n => exact .inl rfl

theorem Labelled.padBci?_eq_none (h : Labelled bci kind label)
    (hkind : kind ≠ .landingpad) (n : Nat) : Topology.padBci? (numbered n label) = none := by
  rw [numbered_eq]
  generalize hsuffix : (if n = 0 then [] else 46 :: ofNat n : Text) = suffix
  have hassoc (t : Text) : bciLabel bci t ++ suffix = bciLabel bci (t ++ suffix) := by
    unfold bciLabel
    rw [append_assoc]
  have other {c : UInt8} {t : Text} (hc : c ≠ 117) : Topology.padBci? (bciLabel bci (95 :: c :: t) ++ suffix) = none := by
    rw [hassoc]
    refine padBci?_bciLabel bci (by simp; decide) fun heq => hc ?_
    exact (List.cons.inj (List.cons.inj heq).2).1
  cases h with
  | entry | «return» => rfl
  | code =>
    rw [hassoc, nil_append]
    subst hsuffix
    split
    · exact padBci?_bciLabel bci (by simp) (by decide)
    · exact padBci?_bciLabel bci (by simp; decide) (fun heq => absurd (List.cons.inj heq).1 (by decide))
  | pad => exact absurd rfl hkind
  | leave | «continue» | resume | cleanup | «catch» | loop => exact other (by decide)

namespace Finished

variable {b : BlockId} {k : Block}

theorem padOk (h : Finished cx s) (hk : s.mod.block? b = some k) (hkind : k.kind = .landingpad) :
    k.label = padLabel k.start ∧ cx.table.isProtected k.start = true ∧
      ∃ cleanup, k.pad = some ⟨k.start, (candidates [] (cx.table.covering k.start)).map (clauseOf cx), cleanup⟩ := by
  obtain ⟨D, hg, -⟩ := h.good
  have hmem := h.mem_pads_of_kind hk hkind
  obtain ⟨b', k', hk', hfault⟩ := hg.site hmem
  obtain ⟨-, k'', -, -, -, -, cleanup, hk'', -, hlabel, -, -, -, -, -, -, -, -, hpad⟩ := hg.pad hmem
  obtain rfl := Option.mem_unique hk hk''
  exact ⟨hlabel, (h.siteAt_iff.2 ⟨b', k', hk', hfault⟩).2, cleanup, hpad⟩

/-- **Only the landingpads have labels that are read as theirs.** -/
theorem padBci? (h : Finished cx s) (hw : Written cx s) (hsmall : ∀ c, cx.table.isProtected c = true → 0 ≤ c ∧ c < 2 ^ 63)
    (hk : s.mod.block? b = some k) : Topology.padBci? k.label = k.pad.map (·.bci) := by
  by_cases hkind : k.kind = .landingpad
  · obtain ⟨hlabel, hprotected, cleanup, hpad⟩ := h.padOk hk hkind
    obtain ⟨hlo, hhi⟩ := hsmall _ hprotected
    rw [hlabel, hpad, padBci?_padLabel hlo hhi]
    rfl
  · obtain ⟨bci, l, n, hl, hlabel⟩ := hw.block b k hk
    rw [hlabel, hl.padBci?_eq_none hkind]
    cases hd : k.pad with
    | none => rfl
    | some d => exact absurd (h.kind_of_pad hk hd) hkind

end Finished

theorem Written.link {mod : Module} (h : Written cx s) (hl : s.mod.Linked mod) : Written cx (s.link mod) :=
  { h with
    labels := by
      refine Eq.trans (congrArg List.reverse (ext_getElem? fun n => ?_)) h.labels
      obtain ⟨_, _, hb⟩ := hl.block n
      rw [getElem?_map, getElem?_map, Array.getElem?_toList, Array.getElem?_toList, ← lookup?_ofNat, ← lookup?_ofNat]
      exact (congrArg (Option.map Block.label) hb).trans (Option.map_map ..)
    method := (congrArg Module.Header.method hl.header).trans h.method
    temps := fun t ht => h.temps t (hl.temps ▸ ht)
    inst := fun v i hi => h.inst v i ((hl.inst? v).symm.trans hi)
    block := fun b k' hk' => by
      obtain ⟨k, hk, _, _, rfl⟩ := hl.some_of_block hk'
      exact h.block b k hk }

theorem Written.plain (hw : Written cx s) : ∀ k ∈ s.mod.blocks.toList, PlainLabel k.label := by
  intro k hk
  obtain ⟨b, hk⟩ := mem_blocks_iff.1 hk
  obtain ⟨bci, l, n, hlabelled, hnumbered⟩ := hw.block b k hk
  rw [hnumbered]
  exact hlabelled.plain _

theorem liftMethod_written {m : Method} {settings : Settings} {mod : Module} (h : liftMethod m settings = .ok mod)
    (hcx : context m settings = .ok cx) : ∃ s, Finished cx s ∧ Written cx s ∧ s.mod = mod := by
  obtain ⟨s, hrun, -, hfin, hl, -⟩ := liftMethod_ends h hcx
  obtain ⟨rfl, -, -⟩ := context_ok hcx
  have hw := (Written.initial cx).changes ((Context.twin_build (.refl cx)).ok hrun)
  exact ⟨s.link mod, hfin.link hl, hw.link hl, rfl⟩

/-! ## Texts of a method -/

theorem Reserved.oneLine (h : Reserved t) : OneLine t := by
  cases h with
  | selector c | caught c => simp +decide [selectorName, caughtName]
  | result => decide
  | level bci n part hpart =>
    have hpart : OneLine part := by rcases hpart with rfl | rfl | rfl <;> decide
    simp +decide [Context.levelTemp, hpart]

section Spelled

variable (hm : cx.method.Spelled)
include hm

theorem Named.oneLine (h : Named cx t) : OneLine t := by
  have cls {ref : ClassRef} (h : .cls ref ∈ cx.method.pool.entries) : ref.Spelled := hm.pool (.cls ref) h
  cases h with
  | cls h => exact (cls h).name
  | layout h hf => exact oneLine_fieldKey ((cls h).fields _ hf).owner ((cls h).fields _ hf).name
  | field h | method h => exact hm.pool _ h
  | caught h => exact hm.types _ h
  | @array kind => cases kind <;> decide
  | refArray h =>
    unfold classDescriptor
    split <;> simp +decide [(cls h).name]
  | level n h => exact (cls h).name.drop n

theorem Emitted.spelled {i : Inst} (h : Emitted cx i) (hs : 0 ≤ i.slot.index) : i.Spelled where
  sym := h.sym.imp_right fun hsym => hsym.elim (fun hnil => hnil ▸ oneLine_nil) fun hn => hn.oneLine hm
  alloc hop :=
    let ⟨a, ha, hn⟩ := h.alloc hop
    ⟨a, ha, hn.oneLine hm⟩
  call := h.call
  slot := hs

theorem oneLine_clauseOf {e : ExceptionEntry} (he : e ∈ cx.table) : OneLine (clauseOf cx e).head := by
  unfold clauseOf
  split
  · exact (by decide : OneLine (ofString "cleanup"))
  · split
    · exact (by decide : OneLine (ofString "catch any"))
    · exact oneLine_append.2 ⟨by decide, hm.types e he⟩

/-- **A lifted module can be written line by line.** -/
theorem Finished.listed (h : Finished cx s) (hw : Written cx s)
    (hsmall : ∀ c, cx.table.isProtected c = true → 0 ≤ c ∧ c < 2 ^ 63) : s.mod.Listed := by
  refine ⟨h.sound, hw.plain, fun k hk => ?_, fun v i hi => ?_, fun k hk d hd c hc => ?_, ?_, fun t ht => (hw.temps t ht).oneLine,
    Module.eq_of_label hw.distinct⟩
  · obtain ⟨b, hk⟩ := mem_blocks_iff.1 hk
    exact h.padBci? hw hsmall hk
  · obtain ⟨hemitted, hslot⟩ := hw.inst v i hi
    exact hemitted.spelled hm hslot
  · obtain ⟨b, hk⟩ := mem_blocks_iff.1 hk
    obtain ⟨-, -, cleanup, hpad⟩ := h.padOk hk (h.kind_of_pad hk hd)
    obtain rfl := Option.mem_unique hpad hd
    obtain ⟨e, he, rfl⟩ := mem_map.1 hc
    exact oneLine_clauseOf hm (mem_of_mem_filter (candidates_subset he))
  · rw [hw.method]
    exact hm.key

end Spelled

end Lift

open Lift
open Text (ofString)

/-- A lifted module can be written line by line if its method is from a source. -/
theorem liftMethod_listed {m : Method} {settings : Settings} {mod : Ir.Module} (hm : m.Spelled)
    (hcode : m.code.length < 2 ^ 63) (h : liftMethod m settings = .ok mod) : mod.Listed := by
  obtain ⟨cx, hcx⟩ := exists_context h
  obtain ⟨s, hfin, hw, rfl⟩ := liftMethod_written h hcx
  obtain ⟨rfl, -, -⟩ := context_ok hcx
  refine hfin.listed hm hw fun c hc => ?_
  obtain ⟨hlo, hhi⟩ := context_protected hcx hc
  exact ⟨hlo, by omega⟩

/-- **The topology of a lifted module is read from its listing just if the types of its clauses are words and no
instruction looks like an unwind edge in a block that has none.** -/
theorem liftMethod_topology {source : Text} {program : Program} {m : Method} {settings : Settings} {mod : Ir.Module}
    (hparse : Source.parse source = .ok program) (hm : m ∈ program.methods) (h : liftMethod m settings = .ok mod)
    (hcode : m.code.length < 2 ^ 63) (hlong : (Text.lines mod.dump).tooLong = false) :
    (∃ t, mod.topology? = some t ∧ Ir.Topology.parse mod.dump = .ok t) ↔ mod.Legible ∧ mod.Honest :=
  Ir.Topology.parse_dump_iff (liftMethod_listed (Source.parse_spelled hparse m hm) hcode h) hlong

/-! ## A quotient with a handler -/

/-- A quotient whose handler answers `-1`. -/
def caughtSource : Text := ofString
  ".method static T.f ()I
from:
    iconst_1
    iconst_0
    idiv
    ireturn
to:
    pop
    iconst_m1
    ireturn
    .try from to to E
.end
"

def caughtBody : List Source.BodyLine :=
  ⟨2, ofString "from" ++ [Text.byte ':'], []⟩ ::
    ([⟨3, ofString "iconst_1", []⟩, ⟨4, ofString "iconst_0", []⟩, ⟨5, ofString "idiv", []⟩,
      ⟨6, ofString "ireturn", []⟩] ++
    ⟨7, ofString "to" ++ [Text.byte ':'], []⟩ ::
    ([⟨8, ofString "pop", []⟩, ⟨9, ofString "iconst_m1", []⟩, ⟨10, ofString "ireturn", []⟩] ++
    [⟨11, ofString ".try", [ofString "from", ofString "to", ofString "to", ofString "E"]⟩]))

def caughtLabels : Std.HashMap Text Nat :=
  (({} : Std.HashMap Text Nat).insert (ofString "from") 0).insert (ofString "to") 4

/-- The assembler before the first line of either source. -/
def emptyAssembler : Assembler :=
  { owner := "T", name := "f", desc := "()I", isStatic := true }

def caughtAssembler : Assembler := { emptyAssembler with
  code := #[4, 3, 108, 172, 87, 2, 172], labels := caughtLabels
  tries := #[⟨ofString "from", ofString "to", ofString "to", ofString "E", false⟩] }

def caughtQuotient : Method :=
  { owner := "T", name := "f", desc := "()I", isStatic := true
    code := [4, 3, 108, 172, 87, 2, 172]
    exceptions := [{ start := 0, stop := 4, handler := 4, catchType := "E" }] }

set_option maxRecDepth 2000 in
theorem assembleBody_caught : Source.assembleBody emptyAssembler caughtBody = .ok caughtAssembler := by
  refine (Source.assembleBody_label Std.HashMap.contains_empty rfl).trans ?_
  refine (Source.assembleBody_writes [4, 3, 108, 172] ?_ rfl).trans ?_
  · exact .cons (fun _ => rfl) (.cons (fun _ => rfl) (.cons (fun _ => rfl) (.cons (fun _ => rfl) .nil)))
  refine (Source.assembleBody_label ?_ rfl).trans ?_
  · simp only [emptyAssembler, Std.HashMap.contains_insert, Std.HashMap.contains_empty]
    decide
  refine (Source.assembleBody_writes [87, 2, 172] ?_ rfl).trans ?_
  · exact .cons (fun _ => rfl) (.cons (fun _ => rfl) (.cons (fun _ => rfl) .nil))
  rfl

theorem parse_caught : Source.parse caughtSource = .ok { methods := [caughtQuotient] } := by
  have hfrom : caughtLabels[ofString "from"]? = some 0 := by
    rw [caughtLabels, Std.HashMap.getElem?_insert, if_neg (by decide), Std.HashMap.getElem?_insert_self]
  have hto : caughtLabels[ofString "to"]? = some 4 := Std.HashMap.getElem?_insert_self
  have hbuild : caughtAssembler.build.2 = .ok caughtQuotient := by
    refine (Assembler.build_ok (t := ⟨[], ⟨.int, ofString "I"⟩⟩) (r := caughtQuotient.exceptions) rfl ?_ rfl ?_).trans rfl
    · decide +kernel
    · refine (List.mapM_cons ..).trans ?_
      rw [Assembler.resolveTry_ok hfrom hto hto]
      rfl
  exact Source.parse_static 1 (ofString "T.f") _ caughtBody (by decide +kernel) (by decide +kernel) (by decide)
    assembleBody_caught hbuild

/-- The landingpad of the quotient and its unwind edge are read from the listing. -/
theorem caughtQuotient_topology : ∃ mod t, liftMethod caughtQuotient {} = .ok mod ∧ t.pads ≠ [] ∧ t.unwind ≠ [] ∧
    mod.topology? = some t ∧ Ir.Topology.parse mod.dump = .ok t := by
  have hlifted : ((liftMethod caughtQuotient {}).toOption.any fun mod => decide (mod.Legible ∧ mod.Honest) &&
      !(Text.lines mod.dump).tooLong && mod.topology?.any fun t => decide (t.pads ≠ [] ∧ t.unwind ≠ [])) = true := by
    decide +kernel
  obtain ⟨mod, hmod, hlifted⟩ := exists_ok_of_any hlifted
  simp only [Bool.and_eq_true, decide_eq_true_eq, Bool.not_eq_true', Option.any_eq_true] at hlifted
  obtain ⟨⟨hread, hlong⟩, t, ht, hpads, hunwind⟩ := hlifted
  obtain ⟨t', ht', hparse⟩ :=
    (liftMethod_topology parse_caught (List.mem_singleton.2 rfl) hmod (by decide) hlong).2 hread
  obtain rfl := Option.mem_unique ht ht'
  exact ⟨mod, t, hmod, hpads, hunwind, ht, hparse⟩

/-! ## A string that imitates an unwind edge -/

def imitationSource : Text := ofString
  ".method static T.f ()I
start:
    ldc \"unwind label %x\"
    pop
    iconst_0
    ireturn
.end
"

def imitationBody : List Source.BodyLine :=
  ⟨2, ofString "start" ++ [Text.byte ':'], []⟩ ::
    ⟨3, ofString "ldc", [ofString "\"unwind label %x\""]⟩ ::
    ([⟨4, ofString "pop", []⟩, ⟨5, ofString "iconst_0", []⟩] ++ [⟨6, ofString "ireturn", []⟩])

def imitationAssembler : Assembler := { emptyAssembler with
  code := #[18, 1, 87, 3, 172], pool := ⟨#[.string (ofString "unwind label %x")]⟩
  interned := ({} : Std.HashMap InternKey Nat).insert (.string (ofString "unwind label %x")) 1
  labels := ({} : Std.HashMap Text Nat).insert (ofString "start") 0 }

def imitation : Method :=
  { owner := "T", name := "f", desc := "()I", isStatic := true
    code := [18, 1, 87, 3, 172], pool := ⟨#[.string (ofString "unwind label %x")]⟩ }

set_option maxRecDepth 2000 in
theorem assembleBody_imitation : Source.assembleBody emptyAssembler imitationBody = .ok imitationAssembler := by
  have hldc : Source.assembleLine { emptyAssembler with labels := imitationAssembler.labels } (ofString "ldc")
      [ofString "\"unwind label %x\""] = .ok { imitationAssembler with code := #[18, 1] } := by
    have hstring (a : Assembler) : Source.assembleLine a (ofString "ldc") [ofString "\"unwind label %x\""] =
        .ok (a.ldcString (ofString "unwind label %x")) := rfl
    rw [hstring, Assembler.ldcString, Assembler.intern_new Std.HashMap.getElem?_empty]
    rfl
  refine (Source.assembleBody_label Std.HashMap.contains_empty rfl).trans ?_
  refine (Source.assembleBody_cons hldc rfl).trans ?_
  refine (Source.assembleBody_writes [87, 3] ?_ rfl).trans rfl
  exact .cons (fun _ => rfl) (.cons (fun _ => rfl) .nil)

theorem parse_imitation : Source.parse imitationSource = .ok { methods := [imitation] } := by
  have hbuild : imitationAssembler.build.2 = .ok imitation := by
    refine (Assembler.build_ok (t := ⟨[], ⟨.int, ofString "I"⟩⟩) (r := []) rfl ?_ rfl rfl).trans rfl
    decide +kernel
  exact Source.parse_static 1 (ofString "T.f") _ imitationBody (by decide +kernel) (by decide +kernel) (by decide)
    assembleBody_imitation hbuild

/-- The string is read as an unwind edge that the module does not have. -/
theorem imitation_topology : ∃ program mod t t', Source.parse imitationSource = .ok program ∧
    imitation ∈ program.methods ∧ liftMethod imitation {} = .ok mod ∧ (Text.lines mod.dump).tooLong = false ∧
    mod.topology? = some t ∧ Ir.Topology.parse mod.dump = .ok t' ∧ t.unwind = [] ∧
    t'.unwind = [(ofString "bci_0", ofString "x\"")] := by
  have hlifted : ((liftMethod imitation {}).toOption.any fun mod => !(Text.lines mod.dump).tooLong &&
      (Ir.Topology.parse mod.dump).toOption.any fun t' => mod.topology?.any fun t =>
        decide (t.unwind = [] ∧ t'.unwind = [(ofString "bci_0", ofString "x\"")])) = true := by
    decide +kernel
  obtain ⟨mod, hmod, hlifted⟩ := exists_ok_of_any hlifted
  obtain ⟨hlong, hlifted⟩ := Bool.and_eq_true_iff.1 hlifted
  obtain ⟨t', ht', hlifted⟩ := exists_ok_of_any hlifted
  obtain ⟨t, ht, hedges⟩ := (Option.any_eq_true _ _).1 hlifted
  exact ⟨_, mod, t, t', parse_imitation, List.mem_singleton.2 rfl, hmod, by simpa using hlong, ht, ht',
    of_decide_eq_true hedges⟩

end Bytelift
