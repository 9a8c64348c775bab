import Bytelift.Ir.Topology
import Bytelift.Proofs.Ir.Building
import Bytelift.Proofs.Text.Lines
import Bytelift.Proofs.Traversals
import Mathlib.Data.List.TakeWhile

/-!
# Lines of a listing

The exception topology of a module stands in its listing: a landingpad is known by its label and is followed by its
clauses, and an unwind edge ends the line of a terminator. Every text of the listing stands on one line, and the texts
of terminators and clauses read back as what they were written from.

Results:
* `parseClause?_head`: **a clause is read just if its type is a word**.
-/

namespace Bytelift.Ir

open List Option Text Module

variable {m : Module} {t u w L x : Text} {b : UInt8} {term : Terminator} {k : Block} {c : Clause} {i : Inst}

/-! ## Words and marks -/

theorem after?_append (p t : Text) : after? p (p ++ t) = some t := by
  unfold after?
  rw [if_pos (List.isPrefixOf_iff_prefix.2 (prefix_append p t)), drop_left]

theorem eq_of_after? {p : Text} (h : after? p t = some u) : t = p ++ u := by
  unfold after? at h
  split at h
  · rename_i hp
    obtain ⟨v, rfl⟩ := List.isPrefixOf_iff_prefix.1 hp
    rw [drop_left] at h
    rw [Option.some.inj h]
  · cases h

theorem isWord_iff : isWord t = true ↔ t ≠ [] ∧ ∀ b ∈ t, isBlank b = false := by
  unfold isWord
  cases t <;> simp

/-- No end of a mark is a beginning of it. -/
def Unbordered (p : Text) : Prop := ∀ n < p.length, 0 < n → ¬ p.drop n <+: p

instance (p : Text) : Decidable (Unbordered p) := by
  unfold Unbordered
  infer_instance

/-- What stands behind a mark is no word if the mark stands there again. -/
theorem not_isWord_of_after? {p : Text} (hp : Unbordered p) (hblank : ∃ b ∈ p, isBlank b = true) (hx : x ≠ [])
    (h : after? p (x ++ (p ++ L)) = some t) : isWord t = false := by
  have heq := eq_of_after? h
  rcases append_eq_append_iff.1 heq with ⟨q, hq, hrest⟩ | ⟨y, rfl, rfl⟩
  · -- the second mark would start within the first
    have hdrop : q = p.drop x.length := by rw [hq, drop_left]
    by_cases hnil : q = []
    · subst hnil
      rw [nil_append] at hrest
      rw [← hrest]
      obtain ⟨b, hb, hblank⟩ := hblank
      refine Bool.eq_false_iff.2 fun hword => ?_
      rw [(isWord_iff.1 hword).2 b (mem_append_left _ hb)] at hblank
      cases hblank
    · have hlt : x.length < p.length := by
        rw [hq, length_append]
        exact Nat.lt_add_of_pos_right (length_pos_iff.2 hnil)
      refine absurd ?_ (hp x.length hlt (length_pos_iff.2 hx))
      rw [← hdrop]
      exact prefix_of_prefix_length_le ⟨t, hrest.symm⟩ (prefix_append p L) (by rw [hdrop]; simp)
  · obtain ⟨b, hb, hblank⟩ := hblank
    refine Bool.eq_false_iff.2 fun hword => ?_
    rw [(isWord_iff.1 hword).2 b (mem_append_right _ (mem_append_left _ hb))] at hblank
    cases hblank

/-! ## Unwind edges -/

/-- What stands in front of the target of an unwind edge. -/
def edgeMark : Text := "unwind label %"

theorem unwindTarget?_cons : Topology.unwindTarget? (b :: t) = match after? edgeMark (b :: t) with
    | some target => if isWord target then some target else Topology.unwindTarget? t
    | none => Topology.unwindTarget? t := rfl

/-- **An unwind edge at the end of a line is read**, whatever stands before it. -/
theorem unwindTarget?_append (x : Text) (hL : isWord L = true) : Topology.unwindTarget? (x ++ (edgeMark ++ L)) = some L := by
  induction x with
  | nil =>
    have hcons : edgeMark ++ L = 117 :: (edgeMark.tail ++ L) := rfl
    rw [nil_append, hcons, unwindTarget?_cons, ← hcons, after?_append]
    simp [hL]
  | cons b x ih =>
    rw [cons_append, unwindTarget?_cons, ← cons_append]
    split
    · rename_i target h
      rw [not_isWord_of_after? (by decide) ⟨32, by decide, by decide⟩ (cons_ne_nil b x) h]
      exact ih
    · exact ih

theorem unwindTarget?_eq_none (h : ¬ edgeMark <:+: t) : Topology.unwindTarget? t = none := by
  induction t with
  | nil => rfl
  | cons b t ih =>
    rw [infix_cons_iff, not_or] at h
    rw [unwindTarget?_cons]
    split
    · rename_i target hafter
      exact absurd ⟨target, (eq_of_after? hafter).symm⟩ h.1
    · exact ih h.2

theorem not_edge_of_noBlank (h : 32 ∉ t) : ¬ edgeMark <:+: t :=
  fun hi => h (hi.subset (by decide))

/-- A word is passed over, unless it ends in `unwind` and a label follows. -/
theorem not_edge_word (hw : 32 ∉ w) (ht : ¬ edgeMark <:+: t)
    (h : ¬ ofString "unwind" <:+ w ∨ ¬ ofString "label %" <+: t) : ¬ edgeMark <:+: w ++ 32 :: t := by
  have hmark : edgeMark = ofString "unwind" ++ 32 :: ofString "label %" := rfl
  induction w with
  | nil =>
    rw [nil_append, infix_cons_iff, not_or]
    refine ⟨?_, ht⟩
    rintro ⟨v, hv⟩
    cases hv
  | cons b w ih =>
    rw [cons_append, infix_cons_iff, not_or]
    refine ⟨?_, ih (fun hm => hw (mem_cons_of_mem _ hm))
      (h.imp_left fun hno hs => hno (hs.trans (suffix_cons b w)))⟩
    rintro ⟨v, hv⟩
    rw [hmark, append_assoc, cons_append, ← cons_append] at hv
    obtain ⟨heq, rfl⟩ := eq_of_append_cons (by decide) hw hv
    exact h.elim (fun hno => hno (heq ▸ suffix_rfl)) fun hno => hno (prefix_append _ _)

theorem not_edge_keyword (w : Text) (ht : ¬ edgeMark <:+: t)
    (hw : 32 ∉ w ∧ ¬ ofString "unwind" <:+ w := by decide) : ¬ edgeMark <:+: w ++ 32 :: t :=
  not_edge_word hw.1 ht (.inl hw.2)

/-! ## Labels -/

/-- A label of visible ASCII characters that does not look like a comment. -/
structure PlainLabel (l : Text) : Prop where
  ne_nil : l ≠ []
  visible : ∀ b ∈ l, 33 ≤ b ∧ b ≤ 126
  head : l.head? ≠ some 59

namespace PlainLabel

variable {L : Text}

theorem noBlank (h : PlainLabel L) : 32 ∉ L := fun hm => absurd (h.visible 32 hm).1 (by decide)

theorem isWord (h : PlainLabel L) : isWord L = true := by
  refine isWord_iff.2 ⟨h.ne_nil, fun b hb => ?_⟩
  have hlo := UInt8.le_iff_toNat_le.1 (h.visible b hb).1
  unfold isBlank
  simp only [Bool.or_eq_false_iff, decide_eq_false_iff_not]
  refine ⟨⟨⟨⟨?_, ?_⟩, ?_⟩, ?_⟩, ?_⟩ <;> rintro rfl <;> exact absurd hlo (by decide)

theorem oneLine (h : PlainLabel L) : OneLine L := fun hm => absurd (h.visible 10 hm).1 (by decide)

theorem isSpace_false (h : 33 ≤ b ∧ b ≤ 126) : isSpace b.toNat = false := by
  have hlo := UInt8.le_iff_toNat_le.1 h.1
  have hhi := UInt8.le_iff_toNat_le.1 h.2
  have hall : ∀ n < 127, 33 ≤ n → isSpace n = false := by decide
  exact hall _ (Nat.lt_succ_of_le hhi) hlo

/-- A line that starts with a letter and ends in a label has no blanks at its ends. -/
theorem trimSpace (h : PlainLabel L) (hb : 33 ≤ b ∧ b ≤ 126) (x : Text) : trimSpace (b :: (x ++ L)) = b :: (x ++ L) := by
  have hascii {b : UInt8} (h : 33 ≤ b ∧ b ≤ 126) : b < 0x80 := Nat.lt_of_le_of_lt h.2 (by decide)
  obtain ⟨l, c, rfl⟩ := eq_nil_or_concat L |>.resolve_left h.ne_nil
  have hc := h.visible c (by simp)
  refine trimSpace_eq_self (c := c) (u := b :: (x ++ l)) (hascii hb) (isSpace_false hb) (hascii hc) (isSpace_false hc) ?_
  simp

end PlainLabel

/-! ## Terminators -/

theorem noBlank_valueText (v : ValueId) : 32 ∉ valueText v :=
  fun h => (mem_cons.1 h).elim (by decide) (notMem_ofInt rfl (by decide) v)

theorem noBlank_label (hm : ∀ k ∈ m.blocks.toList, PlainLabel k.label) {b : BlockId} {l : Text} (h : m.label? b = some l) :
    32 ∉ l := by
  unfold label? at h
  split at h
  · cases h
    decide
  · obtain ⟨k, hk, rfl⟩ := map_eq_some_iff.1 h
    exact fun hb => (mem_cons.1 hb).elim (by decide) (hm k (block?_mem hk)).noBlank

/-- A word that ends in a comma or a colon is passed over. -/
theorem not_edge_mark {c : UInt8} (hw : 32 ∉ w) (hc : c = 44 ∨ c = 58) (ht : ¬ edgeMark <:+: t) :
    ¬ edgeMark <:+: w ++ c :: 32 :: t := by
  have hassoc : w ++ c :: 32 :: t = (w ++ [c]) ++ 32 :: t := by simp
  rw [hassoc]
  refine not_edge_word (fun hb => ?_) ht (.inl fun hs => ?_)
  · rcases mem_append.1 hb with hb | hb
    · exact hw hb
    · rw [← mem_singleton.1 hb] at hc
      exact absurd hc (by decide)
  · obtain ⟨x, hx⟩ := hs
    have hlast := congrArg List.getLast? hx
    rw [getLast?_append_of_ne_nil x (by decide), getLast?_concat] at hlast
    rw [← Option.some.inj hlast] at hc
    exact absurd hc (by decide)

/-- What follows a label is passed over with it. -/
theorem not_edge_label (h : ¬ edgeMark <:+: t) : ¬ edgeMark <:+: ofString "label " ++ t :=
  not_edge_keyword (ofString "label") h

theorem not_edge_arms {arms : List Text} (h : ∀ a ∈ arms, ∃ n l, a = ofInt n ++ ": label " ++ l ∧ 32 ∉ l)
    (hx : 32 ∉ x) : ¬ edgeMark <:+: x ++ (join ", " arms ++ "]") := by
  have arm {n : Int} {l x rest : Text} (hx : 32 ∉ x) (hrest : ¬ edgeMark <:+: l ++ rest) :
      ¬ edgeMark <:+: x ++ (ofInt n ++ ": label " ++ l ++ rest) := by
    have hassoc : x ++ (ofInt n ++ ": label " ++ l ++ rest) =
        (x ++ ofInt n) ++ 58 :: 32 :: (ofString "label " ++ (l ++ rest)) := by
      simp only [append_assoc]
      rfl
    rw [hassoc]
    refine not_edge_mark (fun hb => ?_) (.inr rfl) (not_edge_label hrest)
    exact (mem_append.1 hb).elim hx (notMem_ofInt rfl (by decide) n)
  fun_induction join ", " arms generalizing x with
  | case1 => exact not_edge_of_noBlank fun hb => (mem_append.1 hb).elim hx (by decide)
  | case2 a =>
    obtain ⟨n, l, rfl, hl⟩ := h a mem_cons_self
    exact arm hx (not_edge_of_noBlank fun hb => (mem_append.1 hb).elim hl (by decide))
  | case3 a arms hne ih =>
    obtain ⟨⟨n, l, rfl, hl⟩, harms⟩ := forall_mem_cons.1 h
    rw [append_assoc (_ ++ _ ++ _), append_assoc (_ ++ _ ++ _)]
    refine arm hx ?_
    exact not_edge_mark hl (.inl rfl) (ih harms (x := []) not_mem_nil)

/-- **A terminator without an unwind edge is not read as one.** -/
theorem not_edge_term (hm : ∀ k ∈ m.blocks.toList, PlainLabel k.label) (hu : term.unwind = noBlock)
    (h : m.termText? term = some t) : ¬ edgeMark <:+: t := by
  have hlabel {b : BlockId} {l : Text} (hl : m.label? b = some l) := noBlank_label hm hl
  cases term with
  | goto b =>
    obtain ⟨l, hl, h⟩ := bind_eq_some_iff.1 h
    cases h
    exact not_edge_keyword "br" (not_edge_label (not_edge_of_noBlank (hlabel hl)))
  | fallthrough b =>
    obtain ⟨l, hl, h⟩ := bind_eq_some_iff.1 h
    cases h
    exact not_edge_keyword "fallthrough" (not_edge_label (not_edge_of_noBlank (hlabel hl)))
  | condBr v b e =>
    obtain ⟨l, hl, h⟩ := bind_eq_some_iff.1 h
    obtain ⟨l', hl', h⟩ := bind_eq_some_iff.1 h
    cases h
    simp only [append_assoc]
    refine not_edge_keyword "br" (not_edge_keyword "i1" ?_)
    refine not_edge_mark (noBlank_valueText v) (.inl rfl) (not_edge_label ?_)
    exact not_edge_mark (hlabel hl) (.inl rfl) (not_edge_label (not_edge_of_noBlank (hlabel hl')))
  | switch v d cases =>
    obtain ⟨arms, harms, h⟩ := bind_eq_some_iff.1 h
    obtain ⟨l, hl, h⟩ := bind_eq_some_iff.1 h
    cases h
    simp only [append_assoc]
    refine not_edge_keyword "switch" (not_edge_keyword "i32" ?_)
    refine not_edge_mark (noBlank_valueText v) (.inl rfl) (not_edge_label ?_)
    refine not_edge_word (hlabel hl) (not_edge_arms (x := "[") (fun a ha => ?_) (by decide)) (.inr fun hp => ?_)
    · obtain ⟨c, -, hc⟩ := exists_of_mem_right (mapM_eq_some_iff.1 harms) ha
      obtain ⟨l', hl', hc⟩ := bind_eq_some_iff.1 hc
      cases hc
      exact ⟨_, _, rfl, hlabel hl'⟩
    · obtain ⟨x, hx⟩ := hp
      cases hx
  | ret v =>
    cases h
    split
    · decide
    · simp only [append_assoc]
      refine not_edge_keyword "ret" (not_edge_keyword m.result.name (not_edge_of_noBlank (noBlank_valueText v)) ?_)
      cases m.result <;> decide
  | throw v u =>
    obtain rfl : u = noBlock := hu
    cases h
    exact not_edge_keyword "throw" (not_edge_of_noBlank (noBlank_valueText v))
  | mayUnwind b u =>
    obtain rfl : u = noBlock := hu
    obtain ⟨l, hl, h⟩ := bind_eq_some_iff.1 h
    cases h
    simp only [append_assoc]
    refine not_edge_keyword "continue" (not_edge_label ?_)
    refine not_edge_word (hlabel hl) ?_ (.inr ?_)
    · decide
    · decide
  | resume v =>
    cases h
    exact not_edge_keyword "resume" (not_edge_of_noBlank (noBlank_valueText v))
  | unreachable | none | unknown n =>
    cases h
    decide

theorem label?_of_block {b : BlockId} (h : m.block? b = some k) : m.label? b = some ("%" ++ k.label) := by
  obtain ⟨hlo, hhi⟩ := block?_lt h
  unfold label?
  rw [if_neg (not_or.2 ⟨fun hb => absurd (hb ▸ hlo) (by decide), Int.not_le.2 hhi⟩), h]
  rfl

theorem unwindTarget?_trimSpace (hb : 33 ≤ b ∧ b ≤ 126) (x : Text) (hL : PlainLabel L) :
    Topology.unwindTarget? (trimSpace (b :: (x ++ (edgeMark ++ L)))) = some L := by
  rw [← append_assoc, hL.trimSpace hb, append_assoc, ← cons_append, unwindTarget?_append _ hL.isWord]

/-- **An unwind edge is read from the terminator that has it.** -/
theorem unwindTarget?_term (hu : term.unwind ≠ noBlock)
    (hk : m.block? term.unwind = some k) (hl : PlainLabel k.label) (h : m.termText? term = some t) :
    Topology.unwindTarget? (trimSpace t) = some k.label := by
  have hlabel := label?_of_block hk
  cases term with
  | throw v u =>
    have hu : ¬ u = noBlock := hu
    simp only [termText?, if_neg hu] at h
    obtain ⟨l, hl', h⟩ := bind_eq_some_iff.1 h
    obtain rfl := mem_unique hl' hlabel
    cases h
    have heq : ("throw " ++ valueText v ++ " unwind label " ++ ("%" ++ k.label) : Text) =
        116 :: ((ofString "hrow " ++ (valueText v ++ [32])) ++ (edgeMark ++ k.label)) := by
      simp only [append_assoc]
      rfl
    rw [heq]
    exact unwindTarget?_trimSpace (by decide) _ hl
  | mayUnwind b u =>
    obtain ⟨l, -, h⟩ := bind_eq_some_iff.1 h
    obtain ⟨l', hl', h⟩ := bind_eq_some_iff.1 h
    obtain rfl := mem_unique hl' hlabel
    cases h
    have heq : ("continue label " ++ l ++ " unwind label " ++ ("%" ++ k.label) : Text) =
        99 :: ((ofString "ontinue label " ++ (l ++ [32])) ++ (edgeMark ++ k.label)) := by
      simp only [append_assoc]
      rfl
    rw [heq]
    exact unwindTarget?_trimSpace (by decide) _ hl
  | _ => exact absurd rfl hu

/-! ## Clauses -/

/-- What a clause does, as it stands in a listing. -/
def Clause.head : Clause → Text
  | .cleanup _ => "cleanup"
  | .catchAny _ => "catch " ++ Text.ofString "any"
  | .catch ty _ => "catch " ++ ty

/-- A clause whose type can be told from what follows it. -/
def Clause.Legible : Clause → Prop
  | .catch ty _ => isWord ty = true
  | _ => True

instance : (c : Clause) → Decidable c.Legible
  | .catch ty _ => inferInstanceAs (Decidable (isWord ty = true))
  | .catchAny _ | .cleanup _ => inferInstanceAs (Decidable True)

/-- What stands between a clause and the label of its target. -/
def labelMark : Text := " label %"

theorem clauseText?_eq (h : m.block? c.target = some k) : m.clauseText? c = some (c.head ++ (labelMark ++ k.label)) := by
  unfold clauseText?
  rw [label?_of_block h]
  cases c with
  | «catch» ty b =>
    refine congrArg some ?_
    simp only [Clause.head, append_assoc]
    rfl
  | catchAny b => rfl
  | cleanup b => rfl

theorem clauseTarget?_mark (hL : isWord L = true) : clauseTarget? (labelMark ++ L) = some L := by
  unfold clauseTarget?
  rw [show after? " label %" (labelMark ++ L) = some L from after?_append labelMark L]
  simp [hL]

/-- The type of a catch clause is read up to its first blank. -/
theorem parseClause?_type (ty L : Text) : parseClause? ("catch " ++ ty ++ (labelMark ++ L)) =
    if (ty.takeWhile (!isBlank ·)).isEmpty then none
    else (clauseTarget? (ty.dropWhile (!isBlank ·) ++ (labelMark ++ L))).map (("catch " ++ ty.takeWhile (!isBlank ·), ·)) := by
  have hmark : ∀ b ∈ (labelMark ++ L).head?, (!isBlank b) = false := fun b hb => Option.some.inj hb ▸ rfl
  unfold parseClause?
  rw [append_assoc, show after? "cleanup" ("catch " ++ (ty ++ (labelMark ++ L)) : Text) = none from rfl, after?_append]
  dsimp only
  rw [takeWhile_append_stop hmark]
  have hsplit := takeWhile_append_dropWhile (p := (!isBlank ·)) (l := ty)
  generalize ty.takeWhile (!isBlank ·) = x, ty.dropWhile (!isBlank ·) = y at hsplit ⊢
  rw [← hsplit, append_assoc, drop_left]

theorem parseClause?_catch {ty : Text} (hty : isWord ty = true) (hL : isWord L = true) :
    parseClause? ("catch " ++ ty ++ (labelMark ++ L)) = some ("catch " ++ ty, L) := by
  obtain ⟨hne, hblank⟩ := isWord_iff.1 hty
  have hall : ∀ b ∈ ty, (!isBlank b) = true := by simpa using hblank
  rw [parseClause?_type, takeWhile_eq_self_iff.2 hall, dropWhile_eq_nil_iff.2 hall, nil_append, clauseTarget?_mark hL]
  simp [hne]

theorem parseClause?_illegible {ty : Text} (hty : isWord ty = false) :
    parseClause? ("catch " ++ ty ++ (labelMark ++ L)) = none := by
  rw [parseClause?_type]
  split
  · rfl
  rename_i hne
  -- a blank in the type is followed by the mark
  have hrest : ty.dropWhile (!isBlank ·) ≠ [] := fun hnil => by
    have hall := dropWhile_eq_nil_iff.1 hnil
    have hword : isWord ty = true := by
      refine isWord_iff.2 ⟨fun hnil => hne (by rw [hnil]; rfl), fun b hb => ?_⟩
      simpa using hall b hb
    rw [hword] at hty
    cases hty
  unfold clauseTarget?
  cases hafter : after? " label %" (ty.dropWhile (!isBlank ·) ++ (labelMark ++ L)) with
  | none => rfl
  | some target =>
    have hword := not_isWord_of_after? (p := labelMark) (by decide) ⟨32, by decide, by decide⟩ hrest hafter
    simp [hword]

theorem parseClause?_legible (hc : c.Legible) (hL : isWord L = true) :
    parseClause? (c.head ++ (labelMark ++ L)) = some (c.head, L) := by
  cases c with
  | «catch» ty b => exact parseClause?_catch hc hL
  | catchAny b => exact parseClause?_catch (by decide) hL
  | cleanup b =>
    unfold parseClause?
    rw [show after? "cleanup" ((Clause.cleanup b).head ++ (labelMark ++ L)) = some (labelMark ++ L) from after?_append _ _]
    dsimp only
    rw [clauseTarget?_mark hL]
    rfl

/-- **A clause is read just if its type is a word.** -/
theorem parseClause?_head (hL : isWord L = true) :
    parseClause? (c.head ++ (labelMark ++ L)) = if c.Legible then some (c.head, L) else none := by
  split
  · rename_i hc
    exact parseClause?_legible hc hL
  · rename_i hc
    cases c with
    | «catch» ty b => exact parseClause?_illegible (Bool.eq_false_iff.2 hc)
    | catchAny b | cleanup b => exact absurd trivial hc

/-! ## Instructions -/

/-- An instruction that can be written on a line: its symbols hold no line feed, and allocations and calls have their
sites. -/
structure Inst.Spelled (i : Inst) : Prop where
  sym : i.op = .constString ∨ OneLine i.sym
  alloc : i.op = .allocObject ∨ i.op = .allocArray → ∃ a, i.alloc = some a ∧ OneLine a.cls
  call : i.op = .call → ∃ c, i.call = some c ∧ (c.dispatch.isBound = false → i.args ≠ [])
  slot : 0 ≤ i.slot.index

theorem Op.name_head (op : Op) : ∃ b t, op.name = b :: t ∧ b ≠ 32 := by
  cases op <;> exact ⟨_, _, rfl, by decide⟩

@[simp] theorem oneLine_opName (op : Op) : OneLine op.name := by
  cases op with
  | unknown b => simp +decide [Op.name]
  | _ => decide

@[simp] theorem oneLine_tyName (ty : Ty) : OneLine ty.name := by cases ty <;> decide

@[simp] theorem oneLine_valueText (v : ValueId) : OneLine (valueText v) := by simp +decide [valueText]

@[simp] theorem oneLine_valuesText (vs : List ValueId) : OneLine (valuesText vs) := by
  refine oneLine_join (by decide) fun t ht => ?_
  obtain ⟨v, -, rfl⟩ := mem_map.1 ht
  exact oneLine_valueText v

theorem slotName?_some (htemps : ∀ t ∈ m.temps.toList, OneLine t) {slot : Slot} (h : 0 ≤ slot.index) :
    ∃ t, m.slotName? slot = some t ∧ OneLine t := by
  unfold slotName?
  split
  · exact ⟨_, rfl, by simp +decide⟩
  · exact ⟨_, rfl, by simp +decide⟩
  · split
    · rename_i hlt
      obtain ⟨t, ht⟩ := exists_lookup? h hlt
      obtain ⟨n, -, hn⟩ := lookup?_eq_some_iff.1 ht
      refine ⟨_, by rw [ht]; rfl, oneLine_append.2 ⟨by decide, htemps t ?_⟩⟩
      exact Array.mem_toList_iff.2 (Array.mem_of_getElem? hn)
    · exact ⟨_, rfl, by simp +decide⟩

theorem callText?_some (hi : i.Spelled) (hop : i.op = .call) : ∃ t, callText? i = some t ∧ OneLine t := by
  obtain ⟨c, hc, hargs⟩ := hi.call hop
  have hsym : OneLine i.sym := hi.sym.resolve_left (by rw [hop]; decide)
  have hname : OneLine c.dispatch.name := by cases c.dispatch <;> decide
  unfold callText?
  rw [hc]
  dsimp only [bind, Option.bind]
  split
  · exact ⟨_, rfl, by simp +decide [hname, hsym]⟩
  · rename_i hbound
    obtain ⟨a, rest, heq⟩ := exists_cons_of_ne_nil (hargs (Bool.eq_false_iff.2 hbound))
    rw [heq]
    exact ⟨_, rfl, by simp +decide [hname, hsym]⟩

theorem operandText?_some (htemps : ∀ t ∈ m.temps.toList, OneLine t) (hi : i.Spelled) :
    ∃ t, m.operandText? i = some t ∧ OneLine t := by
  have hsym (h : i.op ≠ .constString) : OneLine i.sym := hi.sym.resolve_left h
  have hkind (n : Nat) : OneLine (Kind.nameOfCode n) := by
    unfold Kind.nameOfCode Kind.nameOf
    cases Kind.ofCode? n with
    | none => decide
    | some k => cases k <;> decide
  unfold operandText?
  split
  · exact ⟨_, rfl, by simp +decide⟩
  · refine ⟨_, rfl, ?_⟩
    split
    · exact oneLine_floatText _
    · exact oneLine_floatText _
    · exact oneLine_ofInt _
  · exact ⟨_, rfl, by decide⟩
  · exact ⟨_, rfl, oneLine_quote _⟩
  · exact slotName?_some htemps hi.slot
  · obtain ⟨t, ht, hline⟩ := slotName?_some htemps hi.slot
    exact ⟨_, by rw [ht]; rfl, by simp +decide [hline]⟩
  · have hname : OneLine (predicateName i.imm.toInt) := by
      unfold predicateName
      cases predicate? i.imm.toInt with
      | none => decide
      | some p => cases p <;> decide
    exact ⟨_, rfl, by simp +decide [hname]⟩
  · refine ⟨_, rfl, oneLine_append.2 ⟨?_, oneLine_valuesText _⟩⟩
    split <;> decide
  iterate 3 exact ⟨_, rfl, by simp +decide [hkind]⟩
  iterate 6
    · rename_i hop
      exact ⟨_, rfl, OneLine.trimSpace (by simp +decide [hsym, hop])⟩
  · rename_i hop
    obtain ⟨a, ha, hline⟩ := hi.alloc (.inl hop)
    exact ⟨a.cls, by rw [ha]; rfl, hline⟩
  · rename_i hop
    obtain ⟨a, ha, hline⟩ := hi.alloc (.inr hop)
    have hname : OneLine a.kind.name := by cases a.kind <;> decide
    exact ⟨_, by rw [ha]; rfl, by simp +decide [hname, hline]⟩
  iterate 2
    · rename_i hop
      exact ⟨_, rfl, by simp +decide [hsym, hop]⟩
  · rename_i hop
    exact callText?_some hi hop
  · exact ⟨[], rfl, oneLine_nil⟩
  · exact ⟨_, rfl, oneLine_valuesText _⟩

/-- **An instruction stands on a line** and does not start with a blank. -/
theorem instText?_some (htemps : ∀ t ∈ m.temps.toList, OneLine t) (hi : i.Spelled) :
    ∃ t, m.instText? i = some t ∧ OneLine t ∧ t.head? ≠ some 32 := by
  obtain ⟨operands, hop, hline⟩ := operandText?_some htemps hi
  obtain ⟨b, name, hname, hb⟩ := i.op.name_head
  obtain ⟨head, hhead, hfirst, hone⟩ : ∃ head, (if i.hasResult then valueText i.id ++ " = " ++ i.op.name ++ " " ++ i.ty.name
      else i.op.name) = head ∧ (∃ b t, head = b :: t ∧ b ≠ 32) ∧ OneLine head := by
    refine ⟨_, rfl, ?_⟩
    split
    · exact ⟨⟨37, _, rfl, by decide⟩, by simp +decide⟩
    · exact ⟨⟨b, name, hname, hb⟩, oneLine_opName _⟩
  obtain ⟨c, rest, rfl, hc⟩ := hfirst
  unfold instText?
  rw [hop, hhead]
  refine ⟨_, rfl, ?_⟩
  split
  · exact ⟨hone, by simpa using hc⟩
  · exact ⟨oneLine_append.2 ⟨oneLine_append.2 ⟨hone, by decide⟩, hline⟩, by simpa using hc⟩

theorem label?_some (hm : ∀ k ∈ m.blocks.toList, PlainLabel k.label) {e : BlockId} (h : e ≠ noBlock → ∃ k, m.block? e = some k) :
    ∃ l, m.label? e = some l ∧ OneLine l := by
  by_cases he : e = noBlock
  · exact ⟨"none", by unfold label?; rw [if_pos (.inl he)], by decide⟩
  · obtain ⟨k, hk⟩ := h he
    exact ⟨_, label?_of_block hk, oneLine_append.2 ⟨by decide, (hm k (block?_mem hk)).oneLine⟩⟩

/-- **A terminator stands on a line** and does not start with a blank. -/
theorem termText?_some (hm : ∀ k ∈ m.blocks.toList, PlainLabel k.label)
    (h : ∀ e ∈ term.edges, e ≠ noBlock → ∃ k, m.block? e = some k) :
    ∃ t, m.termText? term = some t ∧ OneLine t ∧ t.head? ≠ some 32 := by
  have label {e : BlockId} (he : e ∈ term.edges) := label?_some hm (h e he)
  cases term with
  | goto b | fallthrough b =>
    obtain ⟨l, hl, hline⟩ := label (mem_singleton.2 rfl)
    exact ⟨_, by simp only [termText?, hl]; rfl, by simp +decide [hline]⟩
  | condBr _ b e | mayUnwind b e =>
    obtain ⟨l, hl, hline⟩ := label (e := b) (by simp [Terminator.edges])
    obtain ⟨l', hl', hline'⟩ := label (e := e) (by simp [Terminator.edges])
    exact ⟨_, by simp only [termText?, hl, hl']; rfl, by simp +decide [hline, hline']⟩
  | switch v d cases =>
    obtain ⟨l, hl, hline⟩ := label (e := d) (by simp [Terminator.edges])
    obtain ⟨arms, harms, hlines⟩ : ∃ arms, (cases.mapM fun c => do
        let t ← m.label? c.target
        return ofInt c.key ++ ": label " ++ t) = some arms ∧ ∀ a ∈ arms, OneLine a := by
      refine (exists_mapM (R := fun _ => OneLine) fun c hc => ?_).imp fun _ h => ⟨h.1, fun a ha => (exists_of_mem_right h.2 ha).elim fun _ h => h.2⟩
      obtain ⟨l', hl', hline'⟩ := label (e := c.target) (by simp [Terminator.edges]; exact .inl ⟨c, hc, rfl⟩)
      exact ⟨_, by rw [hl']; rfl, by simp +decide [hline']⟩
    have hjoin : OneLine (join ", " arms) := oneLine_join (by decide) hlines
    exact ⟨_, by simp only [termText?, hl, harms]; rfl, by simpa +decide [hline] using hjoin⟩
  | ret v =>
    refine ⟨_, rfl, ?_⟩
    split
    · decide
    · simp +decide
  | throw v u =>
    obtain ⟨l, hl, hline⟩ := label (mem_singleton.2 rfl)
    by_cases hu : u = noBlock
    · exact ⟨_, by simp only [termText?, if_pos hu]; rfl, by simp +decide⟩
    · exact ⟨_, by simp only [termText?, if_neg hu, hl]; rfl, by simp +decide [hline]⟩
  | resume v => exact ⟨_, rfl, by simp +decide⟩
  | unreachable | none | unknown n => exact ⟨_, rfl, by decide, by decide⟩

end Bytelift.Ir
