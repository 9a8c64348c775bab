import Bytelift.Proofs.Ir.Listing
import Bytelift.Proofs.Ir.Soundness

/-!
# Reading listings

A listing is read line by line. The label of a block starts it, and the label of a landingpad gives its bci; lines that
are indented further are its clauses; every other indented line is searched for an unwind edge. So a module is read from
its listing as it is, if the types of its clauses are words and no instruction of a block without an unwind edge ends
like one.

Results:
* `parse_dump_iff`: **a module is read from its listing just if its clauses are legible and its instructions honest.**
-/

namespace Bytelift.Ir

open List Module Text

variable {m : Module} {t u l : Text} {ts cs : List Text}

/-! ## Lines -/

namespace Topology

variable {r : Reader} {n : Nat}

/-- What a line that may hold an unwind edge adds. -/
def edge (label : Text) (unwind : List (Text × Text)) (line : Text) : List (Text × Text) :=
  match unwindTarget? (trimSpace line) with
  | none => unwind
  | some target => assign label target unwind

theorem lines_append (ls ls' : List Text) : Reader.lines r n (ls ++ ls') = match Reader.lines r n ls with
    | .error e => .error e
    | .ok r' => Reader.lines r' (n + ls.length) ls' := by
  induction ls generalizing r n with
  | nil => rfl
  | cons l ls ih =>
    rw [cons_append, Reader.lines, Reader.lines]
    cases r.line n l with
    | error e => rfl
    | ok r' =>
      dsimp only
      rw [ih, length_cons, Nat.add_right_comm, Nat.add_assoc]

theorem lines_cons (l : Text) (ls : List Text) : r.lines n (l :: ls) = match r.line n l with
    | .error e => .error e
    | .ok r' => r'.lines (n + 1) ls := rfl

/-- Lines are read if a condition holds, and refused if it does not. -/
structure ReadsIf (P : Prop) (r : Reader) (n : Nat) (ls : List Text) (r' : Reader) : Prop where
  ok : P → r.lines n ls = .ok r'
  error : ¬ P → ∃ e, r.lines n ls = .error e

namespace ReadsIf

variable {P Q : Prop} {r1 r' : Reader} {l : Text} {ls ls' : List Text}

theorem of_ok (h : r.lines n ls = .ok r') : ReadsIf True r n ls r' := ⟨fun _ => h, absurd trivial⟩

theorem iff (h : ReadsIf P r n ls r') (hiff : Q ↔ P) : ReadsIf Q r n ls r' := ⟨h.ok ∘ hiff.1, h.error ∘ mt hiff.2⟩

theorem append (h : ReadsIf P r n ls r1) (h' : ReadsIf Q r1 (n + ls.length) ls' r') : ReadsIf (P ∧ Q) r n (ls ++ ls') r' := by
  by_cases hp : P
  · constructor <;> rw [lines_append, h.ok hp, and_iff_right hp]
    · exact h'.ok
    · exact h'.error
  · obtain ⟨e, he⟩ := h.error hp
    exact ⟨fun hpq => absurd hpq.1 hp, fun _ => ⟨e, by rw [lines_append, he]⟩⟩

theorem cons (hl : r.line n l = .ok r1) (h : ReadsIf P r1 (n + 1) ls r') : ReadsIf P r n (l :: ls) r' := by
  constructor <;> rw [lines_cons, hl]
  · exact h.ok
  · exact h.error

end ReadsIf

/-- A label starts a block, and a landingpad if it is the label of one. -/
theorem line_label (hl : PlainLabel l) :
    r.line n (chomp (l ++ ":")) = .ok ⟨r.flush, l, (padBci? l).map fun bci => (bci, { label := l })⟩ := by
  rw [show chomp (l ++ ":") = l ++ [58] from chomp_concat l (by decide)]
  have hno : 32 ∉ l ++ [58] := fun hm => (mem_append.1 hm).elim hl.noBlank (by decide)
  have hfirst {p : Text} (hp : 32 ∈ p) : p.isPrefixOf (l ++ [58]) = false :=
    Bool.eq_false_iff.2 fun h => hno ((List.isPrefixOf_iff_prefix.1 h).subset hp)
  have hcomment : (ofString ";").isPrefixOf (l ++ [58]) = false := by
    obtain ⟨b, l', rfl⟩ := exists_cons_of_ne_nil hl.ne_nil
    refine Bool.eq_false_iff.2 fun h => hl.head ?_
    obtain ⟨x, hx⟩ := List.isPrefixOf_iff_prefix.1 h
    exact congrArg some (List.cons.inj hx).1.symm
  have hignored : isIgnored (l ++ [58]) = false := by
    simp only [isIgnored, Bool.or_eq_false_iff]
    refine ⟨⟨⟨by simp, hcomment⟩, hfirst (by decide)⟩, ?_⟩
    refine beq_eq_false_iff_ne.2 fun h => hl.ne_nil ?_
    exact (append_eq_singleton_iff.1 h).elim (·.1) fun h => by cases h.2
  have hlast : (ofString ":").isSuffixOf (l ++ [58]) = true := isSuffixOf_iff_suffix.2 (suffix_append l _)
  unfold Reader.line
  rw [hignored, hfirst (p := ofString " ") (by decide), hlast, dropLast_concat]
  rfl

theorem trimSpace_blanks (n : Nat) (t : Text) : trimSpace (List.replicate n 32 ++ chomp t) = trimSpace t := by
  induction n with
  | zero => exact trimSpace_chomp t
  | succ n ih =>
    rw [replicate_succ, cons_append, trimSpace_cons (by decide) (by decide), ih]

/-- An indented line that is no clause is searched for an unwind edge. -/
theorem line_code (hr : r.label ≠ []) (ht : t.head? ≠ some 32) :
    r.line n (chomp (ofString "  " ++ t)) = .ok { r with done.unwind := edge r.label r.done.unwind t } := by
  have hclause : (ofString "    ").isPrefixOf (ofString "  " ++ chomp t) = false := by
    refine Bool.eq_false_iff.2 fun h => ht ?_
    have hp : ofString "  " <+: chomp t :=
      (prefix_append_right_inj (ofString "  ")).1 (List.isPrefixOf_iff_prefix.1 h)
    obtain ⟨x, rfl⟩ := hp.trans (chomp_isPrefix t)
    rfl
  have hignored : isIgnored (ofString "  " ++ chomp t) = false := rfl
  have hblank : (ofString " ").isPrefixOf (ofString "  " ++ chomp t) = true := rfl
  have htrim : trimSpace (ofString "  " ++ chomp t) = trimSpace t := trimSpace_blanks 2 t
  rw [chomp_append (by decide)]
  unfold Reader.line edge
  rw [hignored, hblank, hclause, htrim]
  have hempty : r.label.isEmpty = false := by simpa using hr
  simp only [hempty]
  cases unwindTarget? (trimSpace t) <;> rfl

variable {bci : Int} {shape : PadShape}

/-- A line that is indented further is the mark of cleanup code or a clause. -/
theorem line_further {body : Text} (hr : r.label ≠ []) (hp : r.pad = some (bci, shape)) (hbody : trimSpace body = body) :
    r.line n (chomp (ofString "    " ++ body)) =
      if body = "cleanup" then .ok { r with pad := some (bci, { shape with cleanup := true }) }
      else match parseClause? body with
        | none => .error (.badClause n body)
        | some _ => .ok { r with pad := some (bci, { shape with clauses := shape.clauses ++ [clauseKey body] }) } := by
  have htrim : trimSpace (ofString "    " ++ chomp body) = body := (trimSpace_blanks 4 body).trans hbody
  have hignored : isIgnored (ofString "    " ++ chomp body) = false := rfl
  have hblank : (ofString " ").isPrefixOf (ofString "    " ++ chomp body) = true := rfl
  have hfurther : (ofString "    ").isPrefixOf (ofString "    " ++ chomp body) = true := rfl
  have hempty : r.label.isEmpty = false := by simpa using hr
  rw [chomp_append (by decide)]
  unfold Reader.line
  rw [hignored, hblank, hfurther, hempty, htrim, hp]
  rfl

theorem line_clause {c : Clause} {L : Text} (hr : r.label ≠ []) (hp : r.pad = some (bci, shape)) (hL : PlainLabel L) :
    r.line n (chomp (ofString "    " ++ (c.head ++ (labelMark ++ L)))) =
      if c.Legible then
        .ok { r with pad := some (bci, { shape with clauses := shape.clauses ++ [clauseKey (c.head ++ (labelMark ++ L))] }) }
      else .error (.badClause n (c.head ++ (labelMark ++ L))) := by
  obtain ⟨x, hx⟩ : ∃ x, c.head = 99 :: x := by cases c <;> exact ⟨_, rfl⟩
  have hbody : trimSpace (c.head ++ (labelMark ++ L)) = c.head ++ (labelMark ++ L) := by
    rw [hx, ← append_assoc]
    exact hL.trimSpace (by decide) (x ++ labelMark)
  have hmark : c.head ++ (labelMark ++ L) ≠ "cleanup" := fun h => by
    have hmem : 32 ∈ c.head ++ (labelMark ++ L) := mem_append_right _ (mem_append_left _ (by decide))
    rw [h] at hmem
    revert hmem
    decide
  rw [line_further hr hp hbody, if_neg hmark, parseClause?_head hL.isWord]
  by_cases hc : c.Legible
  · rw [if_pos hc, if_pos hc]
  · rw [if_neg hc, if_neg hc]

/-! ## Parts of a block -/

/-- Lines of code add the unwind edges that they hold. -/
theorem lines_code (hr : r.label ≠ []) (hts : ∀ t ∈ ts, t.head? ≠ some 32) :
    r.lines n (ts.map fun t => chomp (ofString "  " ++ t)) =
      .ok { r with done.unwind := ts.foldl (edge r.label) r.done.unwind } := by
  induction ts generalizing r n with
  | nil => rfl
  | cons t ts ih =>
    obtain ⟨ht, hts⟩ := forall_mem_cons.1 hts
    rw [map_cons, Reader.lines, line_code hr ht]
    exact ih hr hts

/-- The text of a clause. -/
def ClauseText (c : Clause) (t : Text) : Prop := ∃ L, PlainLabel L ∧ t = c.head ++ (labelMark ++ L)

theorem lines_clauses {cs : List Clause} (hr : r.label ≠ []) (hp : r.pad = some (bci, shape))
    (h : Forall₂ ClauseText cs ts) : ReadsIf (∀ c ∈ cs, c.Legible) r n (ts.map fun t => chomp (ofString "    " ++ t))
      { r with pad := some (bci, { shape with clauses := shape.clauses ++ ts.map clauseKey }) } := by
  induction h generalizing r n shape with
  | nil => exact ⟨fun _ => by simp [Reader.lines, ← hp], absurd (by simp)⟩
  | @cons c _ _ _ ht _ ih =>
    obtain ⟨L, hL, rfl⟩ := ht
    have hline := line_clause (n := n) (c := c) hr hp hL
    rw [map_cons, forall_mem_cons]
    by_cases hc : c.Legible
    · rw [if_pos hc] at hline
      refine (ReadsIf.cons hline ?_).iff (and_iff_right hc)
      simpa using ih (r := { r with pad := some (bci, { shape with clauses := shape.clauses ++ [clauseKey (c.head ++ (labelMark ++ L))] }) })
        (n := n + 1) hr rfl
    · rw [if_neg hc] at hline
      exact ⟨fun h => absurd h.1 hc, fun _ => ⟨_, by rw [lines_cons, hline]⟩⟩

end Topology

/-! ## Blocks -/

namespace Module

/-- A module that can be written line by line: its blocks have plain labels, each its own, which show the landingpads
among them, and none of its texts holds a line feed. -/
structure Listed (m : Module) : Prop where
  sound : m.Sound
  label : ∀ k ∈ m.blocks.toList, PlainLabel k.label
  bci : ∀ k ∈ m.blocks.toList, Topology.padBci? k.label = k.pad.map (·.bci)
  inst : ∀ v i, m.inst? v = some i → i.Spelled
  types : ∀ k ∈ m.blocks.toList, ∀ d ∈ k.pad, ∀ c ∈ d.clauses, OneLine c.head
  method : OneLine m.method
  temps : ∀ t ∈ m.temps.toList, OneLine t
  distinct : ∀ {b b' k k'}, m.block? b = some k → m.block? b' = some k' → k.label = k'.label → b = b'

/-- The text of the instruction at a reference. -/
def textAt? (m : Module) (v : ValueId) : Option Text := (m.inst? v).bind m.instText?

variable {k : Block} {b : BlockId} {ts : List Text} {d : Landingpad}

theorem Listed.texts (h : m.Listed) (hk : m.block? b = some k) :
    ∃ ts, k.insts.toList.mapM m.textAt? = some ts ∧ ∀ t ∈ ts, OneLine t ∧ t.head? ≠ some 32 := by
  have htext : ∀ v ∈ k.insts.toList, ∃ t, m.textAt? v = some t ∧ OneLine t ∧ t.head? ≠ some 32 := by
    intro v hv
    obtain ⟨before, after, hsplit⟩ := append_of_mem hv
    obtain ⟨i, hi, -⟩ := (h.sound.block hk).inst hsplit
    obtain ⟨t, ht, hline⟩ := instText?_some h.temps (h.inst v i hi)
    exact ⟨t, by unfold textAt?; rw [hi]; exact ht, hline⟩
  obtain ⟨ts, hts, hall⟩ := exists_mapM htext
  exact ⟨ts, hts, fun t ht => (exists_of_mem_right hall ht).elim fun _ h => h.2⟩

theorem Listed.term (h : m.Listed) (hk : m.block? b = some k) :
    ∃ t, m.termText? k.term = some t ∧ OneLine t ∧ t.head? ≠ some 32 :=
  termText?_some h.label fun _ he hne => (h.sound.block hk).term.edge he hne

theorem Listed.clauses (h : m.Listed) (hk : m.block? b = some k) (hd : k.pad = some d) :
    ∃ ts, d.clauses.mapM m.clauseText? = some ts ∧ Forall₂ Topology.ClauseText d.clauses ts ∧ ∀ t ∈ ts, OneLine t := by
  have htext : ∀ c ∈ d.clauses, ∃ t, m.clauseText? c = some t ∧ Topology.ClauseText c t ∧ OneLine t := by
    intro c hc
    obtain ⟨k', hk', -⟩ := ((h.sound.block hk).pad hd).2 c hc
    have hl := h.label k' (block?_mem hk')
    refine ⟨_, clauseText?_eq hk', ⟨_, hl, rfl⟩, oneLine_append.2 ⟨h.types k (block?_mem hk) d hd c hc, ?_⟩⟩
    exact oneLine_append.2 ⟨by decide, hl.oneLine⟩
  obtain ⟨ts, hts, hall⟩ := exists_mapM htext
  exact ⟨ts, hts, hall.imp fun _ _ h => h.1, fun t ht => (exists_of_mem_right hall ht).elim fun _ h => h.2.2⟩

theorem mapM_indented (hts : k.insts.toList.mapM m.textAt? = some ts) :
    (k.insts.toList.mapM fun v => do
      let i ← m.inst? v
      let t ← m.instText? i
      return ofString "  " ++ t) = some (ts.map fun t => ofString "  " ++ t) := by
  rw [← mapM_map hts]
  congr 1
  funext v
  unfold textAt?
  cases m.inst? v with
  | none => rfl
  | some i => cases h : m.instText? i <;> simp [h]

theorem Listed.first (h : m.Listed) (hk : m.block? b = some k) (hd : k.pad = some d)
    (hts : k.insts.toList.mapM m.textAt? = some ts) : ∃ t ts', ts = t :: ts' := by
  obtain ⟨v, i, hv, -⟩ := ((h.sound.block hk).pad hd).1
  have hlen := (mapM_eq_some_iff.1 hts).length_eq
  refine exists_cons_of_ne_nil fun hnil => ?_
  rw [hnil, length_nil, Array.length_toList] at hlen
  rw [Array.eq_empty_of_size_eq_zero hlen] at hv
  cases hv

theorem blockLines?_plain (hd : k.pad = none) (hts : k.insts.toList.mapM m.textAt? = some ts)
    (ht : m.termText? k.term = some t) :
    m.blockLines? k = some ((k.label ++ ":") :: (ts ++ [t]).map fun t => ofString "  " ++ t) := by
  unfold blockLines?
  rw [mapM_indented hts, ht, hd]
  rw [map_append]
  cases ts <;> rfl

/-- The lines of a landingpad, without the blanks before them. -/
def padTexts (d : Landingpad) (cs : List Text) : List Text := (if d.cleanup then [ofString "cleanup"] else []) ++ cs

theorem blockLines?_pad {t0 : Text} (hd : k.pad = some d)
    (hts : k.insts.toList.mapM m.textAt? = some (t0 :: ts)) (hcs : d.clauses.mapM m.clauseText? = some cs)
    (ht : m.termText? k.term = some t) :
    m.blockLines? k = some ((k.label ++ ":") :: (ofString "  " ++ t0) ::
      ((padTexts d cs).map fun t => ofString "    " ++ t) ++ (ts ++ [t]).map fun t => ofString "  " ++ t) := by
  have hpad : m.padLines? d = some ((padTexts d cs).map fun t => ofString "    " ++ t) := by
    unfold padLines?
    rw [hcs]
    rfl
  unfold blockLines?
  rw [mapM_indented hts, map_cons, ht, hd]
  dsimp only [bind, Option.bind, pure]
  rw [hpad, map_append]
  dsimp only
  rw [← cons_append, append_assoc]
  simp only [cons_append]
  rfl

/-! ## Reading a block -/

end Module

namespace Topology

variable {r : Reader} {n : Nat} {k : Block} {b : BlockId} {ts : List Text} {d : Landingpad}

/-- A block that is no landingpad adds the unwind edges that its lines hold. -/
theorem lines_plain (hl : PlainLabel k.label) (hbci : padBci? k.label = none) (hts : ∀ t ∈ ts, t.head? ≠ some 32) :
    r.lines n (((k.label ++ ":") :: ts.map fun t => ofString "  " ++ t).map chomp) =
      .ok ⟨⟨r.flush.pads, ts.foldl (edge k.label) r.flush.unwind⟩, k.label, none⟩ := by
  rw [map_cons, lines_cons, line_label hl, hbci, map_map]
  exact lines_code hl.ne_nil hts

theorem line_cleanup {bci : Int} {shape : PadShape} (hr : r.label ≠ []) (hp : r.pad = some (bci, shape)) :
    r.line n (chomp (ofString "    " ++ ofString "cleanup")) =
      .ok { r with pad := some (bci, { shape with cleanup := true }) } :=
  (line_further hr hp (by decide +kernel)).trans (if_pos rfl)

/-- The mark of cleanup code and the clauses are added to the landingpad if the types are words. -/
theorem lines_pad {bci : Int} (hr : r.label ≠ []) (hp : r.pad = some (bci, { label := l }))
    (h : Forall₂ ClauseText d.clauses cs) :
    ReadsIf (∀ c ∈ d.clauses, c.Legible) r n (((padTexts d cs).map fun t => ofString "    " ++ t).map chomp)
      { r with pad := some (bci, ⟨l, d.cleanup, cs.map clauseKey⟩) } := by
  unfold padTexts
  rw [map_map]
  cases d.cleanup with
  | false => exact lines_clauses hr hp h
  | true => exact .cons (line_cleanup hr hp) (lines_clauses (r := { r with pad := some (bci, { label := l, cleanup := true }) }) hr rfl h)

/-- A landingpad is added with its clauses if their types are words, and so are the unwind edges that its lines hold. -/
theorem lines_landing (hl : PlainLabel k.label) (hbci : padBci? k.label = some d.bci) (ht : t.head? ≠ some 32)
    (h : Forall₂ ClauseText d.clauses cs) (hts : ∀ t ∈ ts, t.head? ≠ some 32) :
    ReadsIf (∀ c ∈ d.clauses, c.Legible) r n (((k.label ++ ":") :: (ofString "  " ++ t) ::
        ((padTexts d cs).map fun t => ofString "    " ++ t) ++ ts.map fun t => ofString "  " ++ t).map chomp)
      ⟨⟨r.flush.pads, (t :: ts).foldl (edge k.label) r.flush.unwind⟩, k.label, some (d.bci, ⟨k.label, d.cleanup, cs.map clauseKey⟩)⟩ := by
  have hlabel := line_label (r := r) (n := n) hl
  rw [hbci] at hlabel
  rw [cons_append, cons_append, map_cons, map_cons, map_append]
  refine .cons hlabel (.cons (line_code hl.ne_nil ht) ?_)
  refine ((lines_pad hl.ne_nil rfl h).append (.of_ok ?_)).iff (and_iff_left trivial).symm
  rw [map_map (l := ts)]
  exact lines_code hl.ne_nil hts

end Topology

namespace Module

variable {k : Block} {b : BlockId} {ts cs : List Text} {d : Landingpad} {T : Topology}

/-- The texts of the instructions of a block and of its terminator. -/
def code (m : Module) (k : Block) : List Text :=
  (k.insts.toList.mapM m.textAt?).getD [] ++ [(m.termText? k.term).getD []]

/-- The landingpads with the one of a block. -/
def addPad (m : Module) (k : Block) (pads : List (Int × PadShape)) : List (Int × PadShape) :=
  match k.pad with
  | none => pads
  | some d => assign d.bci ⟨k.label, d.cleanup, ((d.clauses.mapM m.clauseText?).getD []).map clauseKey⟩ pads

/-- The unwind edges with the one of a block. -/
def addEdge (m : Module) (k : Block) (unwind : List (Text × Text)) : List (Text × Text) :=
  if k.term.unwind = noBlock then unwind
  else match m.block? k.term.unwind with
    | none => unwind
    | some pad => assign k.label pad.label unwind

theorem unwind_mem_edges {term : Terminator} (h : term.unwind ≠ noBlock) : term.unwind ∈ term.edges := by
  cases term with
  | throw v u | mayUnwind t u => simp [Terminator.unwind, Terminator.edges]
  | _ => exact absurd rfl h

theorem Listed.unwind (h : m.Listed) (hk : m.block? b = some k) (hu : k.term.unwind ≠ noBlock) :
    ∃ pad, m.block? k.term.unwind = some pad :=
  (h.sound.block hk).term.edge (unwind_mem_edges hu) hu

theorem addShape?_eq (h : m.Listed) (hk : m.block? b = some k) :
    m.addShape? T k = some ⟨m.addPad k T.pads, m.addEdge k T.unwind⟩ := by
  have hedge (pads : List (Int × PadShape)) : (if k.term.unwind = noBlock then some { T with pads := pads }
      else do
        let pad ← m.block? k.term.unwind
        return ⟨pads, assign k.label pad.label T.unwind⟩) = some ⟨pads, m.addEdge k T.unwind⟩ := by
    unfold addEdge
    by_cases hu : k.term.unwind = noBlock
    · simp [hu]
    · obtain ⟨pad, hpad⟩ := h.unwind hk hu
      simp [hu, hpad]
  unfold addShape? addPad
  cases hd : k.pad with
  | none => exact hedge T.pads
  | some d =>
    obtain ⟨cs, hcs, -⟩ := h.clauses hk hd
    dsimp only [padShape?]
    rw [hcs]
    exact hedge _

end Module

namespace Topology

variable {r : Reader} {n : Nat} {k : Block} {b : BlockId} {ts cs ls : List Text} {d : Landingpad}

/-- **A block is read as what it is, but for unwind edges that its instructions imitate**, if the types of its clauses are words. -/
theorem read_block (h : m.Listed) (hk : m.block? b = some k) (hls : m.blockLines? k = some ls) (r : Reader) (n : Nat) :
    ∃ r', ReadsIf (∀ d ∈ k.pad, ∀ c ∈ d.clauses, c.Legible) r n (ls.map chomp) r' ∧
      r'.flush = ⟨m.addPad k r.flush.pads, (m.code k).foldl (edge k.label) r.flush.unwind⟩ := by
  obtain ⟨ts, hts, hall⟩ := h.texts hk
  obtain ⟨t, ht, -, hone⟩ := h.term hk
  have hmem := block?_mem hk
  have hl := h.label k hmem
  have hbci := h.bci k hmem
  have hhead : ∀ u ∈ ts ++ [t], u.head? ≠ some 32 :=
    forall_mem_append.2 ⟨fun u hu => (hall u hu).2, forall_mem_singleton.2 hone⟩
  unfold addPad code
  rw [hts, ht]
  cases hd : k.pad with
  | none =>
    rw [hd] at hbci
    rw [blockLines?_plain hd hts ht] at hls
    cases hls
    exact ⟨_, (ReadsIf.of_ok (lines_plain hl hbci hhead)).iff (by simp), rfl⟩
  | some d =>
    rw [hd] at hbci
    obtain ⟨t0, ts, rfl⟩ := h.first hk hd hts
    obtain ⟨cs, hcs, hclause, -⟩ := h.clauses hk hd
    rw [blockLines?_pad hd hts hcs ht] at hls
    cases hls
    obtain ⟨hhead0, hhead⟩ := forall_mem_cons.1 hhead
    refine ⟨_, (lines_landing hl hbci hhead0 hclause hhead).iff (by simp), ?_⟩
    dsimp only
    rw [hcs]
    rfl

/-! ## Unwind edges of a block -/

theorem assign_assign {α β : Type} [DecidableEq α] (x : α) (y z : β) (l : List (α × β)) :
    assign x z (assign x y l) = assign x z l := by
  fun_induction assign x y l with
  | case1 => simp [assign]
  | case2 v' l => simp [assign]
  | case3 x' v' l hne ih => simp [assign, hne, ih]

theorem assign_foldl_edge (l target : Text) (ts : List Text) (U : List (Text × Text)) :
    assign l target (ts.foldl (edge l) U) = assign l target U := by
  induction ts generalizing U with
  | nil => rfl
  | cons t ts ih =>
    rw [foldl_cons, ih]
    unfold edge
    split
    · rfl
    · exact assign_assign l _ target U

theorem foldl_edge_eq_self (h : ∀ t ∈ ts, unwindTarget? (trimSpace t) = none) (U : List (Text × Text)) :
    ts.foldl (edge l) U = U := by
  induction ts with
  | nil => rfl
  | cons t ts ih =>
    obtain ⟨ht, hts⟩ := forall_mem_cons.1 h
    rw [foldl_cons, show edge l U t = U by unfold edge; rw [ht], ih hts]

/-- The unwind edge of a block is read, if the block has one or none of its instructions looks like one. -/
theorem foldl_edge (h : m.Listed) (hk : m.block? b = some k)
    (hcode : k.term.unwind = noBlock → ∀ v ∈ k.insts.toList, ∀ t ∈ m.textAt? v, unwindTarget? (trimSpace t) = none)
    (U : List (Text × Text)) : (m.code k).foldl (edge k.label) U = m.addEdge k U := by
  obtain ⟨ts, hts, -⟩ := h.texts hk
  obtain ⟨t, ht, -⟩ := h.term hk
  unfold code
  rw [hts, ht, Option.getD_some, Option.getD_some, foldl_append, foldl_cons, foldl_nil]
  unfold addEdge edge
  by_cases hu : k.term.unwind = noBlock
  · have hterm : unwindTarget? (trimSpace t) = none :=
      unwindTarget?_eq_none fun hi => not_edge_term h.label hu ht (hi.trans (trimSpace_isInfix t))
    rw [if_pos hu, hterm]
    refine foldl_edge_eq_self (fun u hmem => ?_) U
    obtain ⟨v, hv, htext⟩ := exists_of_mem_right (mapM_eq_some_iff.1 hts) hmem
    exact hcode hu v hv u htext
  · obtain ⟨pad, hpad⟩ := h.unwind hk hu
    rw [if_neg hu, hpad, unwindTarget?_term hu hpad (h.label pad (block?_mem hpad)) ht]
    exact assign_foldl_edge _ _ _ _

end Topology

/-! ## Whole listings -/

namespace Module

variable {k : Block} {b : BlockId}

/-- The types that the clauses of a module name are words. -/
def Legible (m : Module) : Prop := ∀ k ∈ m.blocks.toList, ∀ d ∈ k.pad, ∀ c ∈ d.clauses, c.Legible

/-- No instruction looks like an unwind edge in a block that has none. -/
def Honest (m : Module) : Prop :=
  ∀ k ∈ m.blocks.toList, k.term.unwind = noBlock → ∀ v ∈ k.insts.toList, ∀ t ∈ m.textAt? v,
    Topology.unwindTarget? (trimSpace t) = none

instance (m : Module) : Decidable m.Legible :=
  inferInstanceAs (Decidable (∀ k ∈ m.blocks.toList, ∀ d ∈ k.pad, ∀ c ∈ d.clauses, c.Legible))

instance (m : Module) : Decidable m.Honest :=
  inferInstanceAs (Decidable (∀ k ∈ m.blocks.toList, k.term.unwind = noBlock → ∀ v ∈ k.insts.toList,
    ∀ t ∈ m.textAt? v, Topology.unwindTarget? (trimSpace t) = none))

theorem foldlM_addShape? (h : m.Listed) {l : List Block} (hl : ∀ k ∈ l, ∃ b, m.block? b = some k) (T : Topology) :
    l.foldlM m.addShape? T =
      some ⟨l.foldl (fun pads k => m.addPad k pads) T.pads, l.foldl (fun unwind k => m.addEdge k unwind) T.unwind⟩ := by
  induction l generalizing T with
  | nil => rfl
  | cons k l ih =>
    obtain ⟨⟨b, hk⟩, hl⟩ := forall_mem_cons.1 hl
    rw [foldlM_cons, addShape?_eq h hk]
    exact ih hl _

/-- The topology of a module that can be written line by line. -/
theorem topology?_eq (h : m.Listed) : m.topology? = some
    ⟨m.blocks.toList.foldl (fun pads k => m.addPad k pads) [],
      m.blocks.toList.foldl (fun unwind k => m.addEdge k unwind) []⟩ :=
  foldlM_addShape? h (fun _ => mem_blocks_iff.1) {}

/-- The first line of a listing. -/
def firstLine (m : Module) : Text :=
  "define " ++ m.result.name ++ " @" ++ m.method ++ "(" ++ Text.join ", " (m.params.map (·.name)) ++ ") \x7b"

/-- The second line of a listing. -/
def frameLine (m : Module) : Text :=
  let temps : Text := if m.temps.isEmpty then [] else ", temps " ++ Text.join " " m.temps.toList
  "; locals " ++ Text.ofInt m.numLocals ++ ", stack " ++ Text.ofInt m.numStack ++ temps

theorem oneLine_firstLine (h : m.Listed) : OneLine m.firstLine := by
  have hparams : OneLine (join ", " (m.params.map (·.name))) := oneLine_join (by decide) (by simp)
  simpa +decide [firstLine, h.method] using hparams

theorem oneLine_frameLine (h : m.Listed) : OneLine m.frameLine := by
  have htemps : OneLine (join " " m.temps.toList) := oneLine_join (by decide) h.temps
  unfold frameLine
  split
  · simp +decide
  · simpa +decide using htemps

theorem Listed.blockLines (h : m.Listed) (hk : m.block? b = some k) :
    ∃ ls, m.blockLines? k = some ls ∧ ∀ l ∈ ls, OneLine l := by
  obtain ⟨ts, hts, hall⟩ := h.texts hk
  obtain ⟨t, ht, hone, -⟩ := h.term hk
  have hlabel : OneLine (k.label ++ ":") := oneLine_append.2 ⟨(h.label k (block?_mem hk)).oneLine, by decide⟩
  have hindent {x : Text} (hx : OneLine x) (us : List Text) (h : ∀ u ∈ us, OneLine u) : ∀ l ∈ us.map (x ++ ·), OneLine l := by
    simpa [hx] using h
  have hcode : ∀ u ∈ ts ++ [t], OneLine u :=
    forall_mem_append.2 ⟨fun u hu => (hall u hu).1, forall_mem_singleton.2 hone⟩
  cases hd : k.pad with
  | none =>
    refine ⟨_, blockLines?_plain hd hts ht, forall_mem_cons.2 ⟨hlabel, ?_⟩⟩
    exact hindent (by decide) _ hcode
  | some d =>
    obtain ⟨t0, ts, rfl⟩ := h.first hk hd hts
    obtain ⟨cs, hcs, -, hclauses⟩ := h.clauses hk hd
    obtain ⟨hone0, hcode⟩ := forall_mem_cons.1 hcode
    have hpad : ∀ u ∈ padTexts d cs, OneLine u := by
      refine forall_mem_append.2 ⟨fun u hu => ?_, hclauses⟩
      split at hu
      · rw [mem_singleton.1 hu]
        decide
      · cases hu
    refine ⟨_, blockLines?_pad hd hts hcs ht, ?_⟩
    refine forall_mem_append.2 ⟨forall_mem_cons.2 ⟨hlabel, forall_mem_cons.2 ⟨?_, ?_⟩⟩, ?_⟩
    · exact oneLine_append.2 ⟨by decide, hone0⟩
    · exact hindent (by decide) _ hpad
    · exact hindent (by decide) _ hcode

end Module

namespace Topology

variable {l : List Block} {lss : List (List Text)} {label : Text}

theorem read_blocks (h : m.Listed) (hl : ∀ k ∈ l, ∃ b, m.block? b = some k)
    (hls : Forall₂ (fun k ls => m.blockLines? k = some ls) l lss) (r : Reader) (n : Nat) :
    ∃ r', ReadsIf (∀ k ∈ l, ∀ d ∈ k.pad, ∀ c ∈ d.clauses, c.Legible) r n (lss.flatten.map chomp) r' ∧ r'.flush =
      ⟨l.foldl (fun pads k => m.addPad k pads) r.flush.pads,
        l.foldl (fun unwind k => (m.code k).foldl (edge k.label) unwind) r.flush.unwind⟩ := by
  induction hls generalizing r n with
  | nil => exact ⟨r, (ReadsIf.of_ok rfl).iff (by simp), rfl⟩
  | cons hk _ ih =>
    obtain ⟨⟨b, hb⟩, hl⟩ := forall_mem_cons.1 hl
    obtain ⟨r1, hr1, hflush1⟩ := read_block h hb hk r n
    obtain ⟨r', hr', hflush⟩ := ih hl r1 _
    rw [hflush1] at hflush
    rw [flatten_cons, map_append]
    exact ⟨r', (hr1.append hr').iff forall_mem_cons, hflush⟩

theorem line_ignored {r : Reader} {n : Nat} {line : Text} (h : isIgnored line = true) : r.line n line = .ok r := if_pos h

theorem isIgnored_firstLine (m : Module) : isIgnored (chomp m.firstLine) = true := by
  unfold firstLine
  simp only [append_assoc]
  rw [chomp_append (by decide)]
  rfl

theorem isIgnored_frameLine (m : Module) : isIgnored (chomp m.frameLine) = true := by
  unfold frameLine
  simp only [append_assoc]
  rw [chomp_append (by decide)]
  rfl

/-- A listing is read block by block. -/
theorem parse_lines (h : m.Listed) (hlong : (lines m.dump).tooLong = false) :
    ∃ lss, Forall₂ (fun k ls => m.blockLines? k = some ls) m.blocks.toList lss ∧
      parse m.dump = (Reader.lines {} 3 (lss.flatten.map chomp ++ [ofString "\x7d"].map chomp)).map Reader.flush := by
  have hblocks : ∀ k ∈ m.blocks.toList, ∃ ls, m.blockLines? k = some ls ∧ m.blockLines? k = some ls ∧ ∀ l ∈ ls, OneLine l := by
    intro k hk
    obtain ⟨b, hb⟩ := mem_blocks_iff.1 hk
    obtain ⟨ls, hls, hone⟩ := h.blockLines hb
    exact ⟨ls, hls, hls, hone⟩
  obtain ⟨lss, hlss, hall⟩ := exists_mapM hblocks
  refine ⟨lss, hall.imp fun _ _ h => h.1, ?_⟩
  have hdump : m.dump = unlines (m.firstLine :: m.frameLine :: lss.flatten ++ [ofString "\x7d"]) := by
    unfold dump dump? lines?
    rw [hlss]
    rfl
  have hlines : ∀ l ∈ m.firstLine :: m.frameLine :: lss.flatten ++ [ofString "\x7d"], OneLine l := by
    refine forall_mem_append.2 ⟨forall_mem_cons.2 ⟨oneLine_firstLine h,
      forall_mem_cons.2 ⟨oneLine_frameLine h, fun l hl => ?_⟩⟩, forall_mem_singleton.2 (by decide)⟩
    obtain ⟨ls, hls, hl⟩ := mem_flatten.1 hl
    obtain ⟨k, -, -, hone⟩ := exists_of_mem_right hall hls
    exact hone l hl
  rw [hdump] at hlong ⊢
  unfold parse
  dsimp only
  rw [lines_unlines hlines hlong, hlong, cons_append, cons_append, map_cons, map_cons, map_append,
    lines_cons, line_ignored (isIgnored_firstLine m)]
  dsimp only
  rw [lines_cons, line_ignored (isIgnored_frameLine m)]
  dsimp only
  cases Reader.lines {} 3 (lss.flatten.map chomp ++ [ofString "\x7d"].map chomp) <;> rfl

/-- **A listing is read if the types of its clauses are words**: the landingpads as they are, and the unwind edges that
the lines of the blocks hold. Else it is refused. -/
theorem parse_dump (h : m.Listed) (hlong : (lines m.dump).tooLong = false) :
    (m.Legible → parse m.dump = .ok ⟨m.blocks.toList.foldl (fun pads k => m.addPad k pads) [],
      m.blocks.toList.foldl (fun unwind k => (m.code k).foldl (edge k.label) unwind) []⟩) ∧
    (¬ m.Legible → ∃ e, parse m.dump = .error e) := by
  obtain ⟨lss, hlss, hparse⟩ := parse_lines h hlong
  obtain ⟨r, hr, hflush⟩ := read_blocks h (fun _ => mem_blocks_iff.1) hlss {} 3
  have hend (n : Nat) : ReadsIf True r n ([ofString "\x7d"].map chomp) r := .of_ok (by
    rw [map_singleton, lines_cons, line_ignored (by decide)]
    rfl)
  have hall := (hr.append (hend _)).iff (and_iff_left trivial).symm
  rw [hparse]
  refine ⟨fun hleg => ?_, fun hleg => ?_⟩
  · rw [hall.ok hleg]
    exact congrArg Except.ok hflush
  · obtain ⟨e, he⟩ := hall.error hleg
    exact ⟨e, by rw [he]; rfl⟩

/-! ## Which listings are read as they are -/

theorem mem_keys_assign {α β : Type} [DecidableEq α] {x y : α} {v : β} {l : List (α × β)} :
    y ∈ (assign x v l).map Prod.fst ↔ y = x ∨ y ∈ l.map Prod.fst := by
  fun_induction assign x v l with
  | case1 => simp
  | case2 v' l => simp
  | case3 x' v' l hne ih =>
    rw [map_cons, mem_cons, ih, map_cons, mem_cons]
    exact or_left_comm

variable {k : Block} {U : List (Text × Text)}

theorem keys_foldl_edge {l : Text} (ts : List Text) (h : l ∈ U.map Prod.fst) : l ∈ (ts.foldl (edge label) U).map Prod.fst := by
  induction ts generalizing U with
  | nil => exact h
  | cons t ts ih =>
    refine ih ?_
    unfold edge
    split
    · exact h
    · exact mem_keys_assign.2 (.inr h)

/-- The label of a block with a line that looks like an unwind edge is among those with an edge. -/
theorem key_of_imitation {target : Text} (ht : t ∈ ts)
    (htarget : unwindTarget? (trimSpace t) = some target) : label ∈ (ts.foldl (edge label) U).map Prod.fst := by
  obtain ⟨before, after, rfl⟩ := append_of_mem ht
  rw [foldl_append, foldl_cons]
  refine keys_foldl_edge after ?_
  unfold edge
  rw [htarget]
  exact mem_keys_assign.2 (.inl rfl)

theorem keys_foldl_code (h : label ∈ U.map Prod.fst) :
    label ∈ (l.foldl (fun unwind k => (m.code k).foldl (edge k.label) unwind) U).map Prod.fst := by
  induction l generalizing U with
  | nil => exact h
  | cons k l ih => exact ih (keys_foldl_edge _ h)

/-- The labels with an unwind edge are those of blocks that have one. -/
theorem keys_foldl_addEdge (h : label ∈ (l.foldl (fun unwind k => m.addEdge k unwind) U).map Prod.fst) :
    label ∈ U.map Prod.fst ∨ ∃ k ∈ l, k.label = label ∧ k.term.unwind ≠ noBlock := by
  induction l generalizing U with
  | nil => exact .inl h
  | cons k l ih =>
    rcases ih h with hkey | ⟨k', hk', hlabel⟩
    · change label ∈ (m.addEdge k U).map Prod.fst at hkey
      unfold addEdge at hkey
      split at hkey
      · exact .inl hkey
      rename_i hu
      split at hkey
      · exact .inl hkey
      · rcases mem_keys_assign.1 hkey with rfl | hkey
        · exact .inr ⟨k, mem_cons_self, rfl, hu⟩
        · exact .inl hkey
    · exact .inr ⟨k', mem_cons_of_mem _ hk', hlabel⟩

/-- **A module is read from its listing as it is just if the types of its clauses are words and no instruction looks like
an unwind edge in a block that has none.** -/
theorem parse_dump_iff (h : m.Listed) (hlong : (lines m.dump).tooLong = false) :
    (∃ T, m.topology? = some T ∧ parse m.dump = .ok T) ↔ m.Legible ∧ m.Honest := by
  constructor
  · rintro ⟨T, hT, hparse⟩
    have hleg : m.Legible := by
      by_contra hleg
      obtain ⟨e, he⟩ := (parse_dump h hlong).2 hleg
      rw [he] at hparse
      cases hparse
    rw [(parse_dump h hlong).1 hleg] at hparse
    rw [topology?_eq h] at hT
    obtain ⟨-, hedges⟩ := Topology.mk.inj ((Except.ok.inj hparse).trans (Option.some.inj hT).symm)
    refine ⟨hleg, fun k hk hu v hv t ht => ?_⟩
    by_contra hsome
    obtain ⟨target, htarget⟩ := Option.ne_none_iff_exists'.1 hsome
    obtain ⟨b, hb⟩ := mem_blocks_iff.1 hk
    -- the label of the block is read as one with an edge
    have hread : k.label ∈ (m.blocks.toList.foldl (fun unwind k => (m.code k).foldl (edge k.label) unwind) []).map Prod.fst := by
      obtain ⟨before, after, hsplit⟩ := append_of_mem hk
      rw [hsplit, foldl_append, foldl_cons]
      refine keys_foldl_code (key_of_imitation ?_ htarget)
      obtain ⟨ts, hts, -⟩ := h.texts hb
      unfold code
      rw [hts]
      obtain ⟨t', ht', htext⟩ := exists_of_mem_left (mapM_eq_some_iff.1 hts) hv
      obtain rfl := Option.mem_unique ht htext
      exact mem_append_left _ ht'
    rw [hedges] at hread
    rcases keys_foldl_addEdge hread with hnil | ⟨k', hk', hlabel, hu'⟩
    · cases hnil
    · obtain ⟨b', hb'⟩ := mem_blocks_iff.1 hk'
      obtain rfl := h.distinct hb' hb hlabel
      obtain rfl := Option.mem_unique hb' hb
      exact hu' hu
  · rintro ⟨hleg, hhonest⟩
    refine ⟨_, topology?_eq h, ((parse_dump h hlong).1 hleg).trans ?_⟩
    congr 2
    refine foldl_ext _ _ _ fun unwind k hk => ?_
    obtain ⟨b, hb⟩ := mem_blocks_iff.1 hk
    exact foldl_edge h hb (hhonest k hk) unwind

end Topology

end Bytelift.Ir
