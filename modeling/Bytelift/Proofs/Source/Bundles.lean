import Bytelift.Proofs.Code.Descriptors
import Bytelift.Proofs.Source.Calling
import Bytelift.Proofs.Source.Tokens
import Bytelift.Source.Bundle

/-!
# The program of a bundle

A bundle is rendered as a source and assembled. Its names are tokens of the source then, and its code is a run of
lines, so what is loaded is what the bundle describes if the names are words and the code does not end its method.
Other bundles may be loaded as something else.

Main definitions:
* `Bundle.Plain`: names are words, and code does not end its method;
* `Bundle.Describes`: a program has the classes and the methods of a bundle.

Results:
* `Bundle.program_describes`: **a plain bundle is loaded as the program that it describes**.
-/

namespace Bytelift

open List Assembler Text Source

variable {ls : List Text} {l : Text}

namespace Text

variable {t : Text}

/-! ## Lines of code -/

/-- A text with a line feed at its end. -/
def closed (t : Text) : Text := if t = [] ∨ [10] <:+ t then t else t ++ [10]

theorem closed_append_feed (t u : Text) : closed (t ++ 10 :: u) = t ++ 10 :: closed u := by
  by_cases hu : u = []
  · subst hu
    unfold closed
    rw [if_pos (.inr (suffix_append t [10])), if_pos (.inl rfl)]
  obtain ⟨v, b, rfl⟩ := eq_nil_or_concat u |>.resolve_left hu
  have hsuffix (x : Text) : [10] <:+ x ++ [b] ↔ b = 10 := by
    refine ⟨fun ⟨y, hy⟩ => ?_, fun hb => hb ▸ suffix_append x _⟩
    exact (singleton_inj.1 (append_inj' hy rfl).2).symm
  unfold closed
  rw [concat_eq_append, ← cons_append, ← append_assoc]
  simp only [hsuffix, append_eq_nil_iff, cons_ne_nil, and_false, false_or]
  split <;> simp

/-- The lines of a text, as they stand between line feeds. -/
def pieces (t : Text) : List Text := (splitLines t [] []).map List.reverse

theorem unlines_append (l l' : List Text) : unlines (l ++ l') = unlines l ++ unlines l' := flatMap_append

theorem unlines_splitLines (t : Text) {rev : Text} (hrev : OneLine rev) (acc : List Text) :
    unlines ((splitLines t rev acc).map reverse) = unlines (acc.reverse.map reverse) ++ closed (rev.reverse ++ t) := by
  fun_induction splitLines t rev acc with
  | case1 acc => simp [closed]
  | case2 rev acc hne =>
    have hopen : ¬ (rev.reverse ++ [] = [] ∨ [10] <:+ rev.reverse ++ []) := by
      rw [append_nil]
      rintro (hnil | hsuffix)
      · exact hne (reverse_eq_nil_iff.1 hnil)
      · exact hrev (mem_reverse.1 (hsuffix.subset mem_cons_self))
    rw [closed, if_neg hopen]
    simp [unlines]
  | case3 t rev acc ih =>
    rw [ih oneLine_nil, closed_append_feed]
    simp [unlines]
  | case4 b t rev acc hb ih =>
    rw [ih (oneLine_cons.2 ⟨hb, hrev⟩)]
    simp

/-- **A text is made of its lines**, up to a line feed at its end. -/
theorem unlines_pieces (t : Text) : unlines (pieces t) = closed t := unlines_splitLines t oneLine_nil []

theorem oneLine_pieces (h : l ∈ pieces t) : OneLine l := by
  obtain ⟨rev, hrev, rfl⟩ := mem_map.1 h
  exact (oneLine_splitLines oneLine_nil (by simp) rev hrev).reverse

/-- The lines of a text are too long together or short each. -/
theorem length_lt_of_tooLong (h : ∀ l ∈ ls, OneLine l) (hlong : (lines (unlines ls)).tooLong = false) :
    ∀ l ∈ ls, l.length < lineLimit := by
  have hread := congrArg length (lines_unlines h hlong)
  unfold lines at hlong hread
  rw [splitLines_unlines h, reverse_nil, nil_append] at hread
  dsimp only at hread
  rw [length_map, length_map] at hread
  have hall : (ls.map reverse).takeWhile (·.length < lineLimit) = ls.map reverse :=
    (takeWhile_sublist _).eq_of_length (by rw [hread, length_map])
  intro l hl
  have hshort := takeWhile_eq_self_iff.1 hall l.reverse (mem_map_of_mem hl)
  simpa using hshort

/-- The lines of a text without long lines. -/
theorem lines_eq_pieces (h : ∀ l ∈ pieces t, l.length < lineLimit) : t.lines.lines = (pieces t).map chomp := by
  have hall : (splitLines t [] []).takeWhile (·.length < lineLimit) = splitLines t [] [] := by
    rw [takeWhile_eq_self_iff]
    intro rev hrev
    simpa using h rev.reverse (mem_map_of_mem hrev)
  unfold lines
  dsimp only
  rw [hall, pieces, map_map]
  refine map_congr_left fun rev _ => ?_
  rw [Function.comp_apply, chomp, reverse_reverse]

end Text

namespace Source

variable {m : BundleMethod} {t : Text} {c : BundleClass} {ws : List Text}

/-- A text is a word: one token, and neither a line feed nor a carriage return at its end. -/
structure IsWord (t : Text) : Prop where
  token : IsToken t
  oneLine : OneLine t
  last : t.getLast? ≠ some 13

instance (t : Text) : Decidable (IsWord t) :=
  decidable_of_iff (IsToken t ∧ OneLine t ∧ t.getLast? ≠ some 13) ⟨fun h => ⟨h.1, h.2.1, h.2.2⟩, fun h => ⟨h.1, h.2, h.3⟩⟩

/-! ## Lines of words -/

theorem chomp_of_last (h : t.getLast? ≠ some 13) : chomp t = t := by
  obtain rfl | ⟨u, b, rfl⟩ := eq_nil_or_concat t
  · rfl
  · rw [concat_eq_append] at h ⊢
    exact chomp_concat u fun hb => h (by simp [hb])

/-- A line of words. -/
def wordLine (ws : List Text) : Text := Text.join " " ws

theorem wordLine_cons (w w' : Text) (ws : List Text) : wordLine (w :: w' :: ws) = w ++ " " ++ wordLine (w' :: ws) := rfl

theorem oneLine_wordLine (h : ∀ w ∈ ws, IsWord w) : OneLine (wordLine ws) :=
  oneLine_join (by decide) fun w hw => (h w hw).oneLine

theorem chomp_wordLine (h : ∀ w ∈ ws, IsWord w) : chomp (wordLine ws) = wordLine ws := by
  refine chomp_of_last ?_
  induction ws with
  | nil => simp [wordLine, join]
  | cons w ws ih =>
    obtain ⟨hw, hws⟩ := forall_mem_cons.1 h
    cases ws with
    | nil => exact hw.last
    | cons w' ws =>
      have hne : wordLine (w' :: ws) ≠ [] := fun hnil => by
        have htokens := tokenize_join fun x hx => (hws x hx).token
        rw [← wordLine, hnil] at htokens
        cases htokens
      rw [wordLine_cons, getLast?_append_of_ne_nil _ hne]
      exact ih hws

/-- **A line of words is read as these words.** -/
theorem tokenize_wordLine (h : ∀ w ∈ ws, IsWord w) : tokenize (chomp (wordLine ws)) = some ws := by
  rw [chomp_wordLine h]
  exact tokenize_join fun w hw => (h w hw).token

/-! ## Bundles -/

/-- What is loaded of a class: its name, its superclass and its interfaces. -/
def BundleClass.outline (c : BundleClass) : Text × Text × List Text :=
  (c.name, if c.super = [] then "java/lang/Object" else c.super, c.interfaces)

/-- The row that an exception of a bundle describes; `any` is no type. -/
def BundleException.row (e : BundleException) : TryEntry :=
  { start := e.start, stop := e.stop, handler := e.handler
    catchType := if e.catchType = ofString "any" then [] else e.catchType, isCleanup := e.isCleanup }

/-- The row that a line of code stands for. -/
def textRow? (l : Text) : Option TryEntry :=
  match tokenize l with
  | some (head :: args) => lineRow? head args
  | _ => none

/-- The rows of the lines of code. -/
def tableRows (code : Text) : List TryEntry := code.lines.lines.filterMap textRow?

/-- The names of a class are words. -/
structure BundleClass.Plain (c : BundleClass) : Prop where
  name : IsWord c.name
  super : c.super = [] ∨ IsWord c.super
  interfaces : ∀ i ∈ c.interfaces, IsWord i
  fields : ∀ f ∈ c.fields, OneLine f.name ∧ OneLine f.desc

/-- The labels and the type of an exception are words, and cleanup code has no type. -/
structure BundleException.Plain (e : BundleException) : Prop where
  start : IsWord e.start
  stop : IsWord e.stop
  handler : IsWord e.handler
  catchType : e.catchType = [] ∨ e.isCleanup = false ∧ IsWord e.catchType

/-- The names of a method are words, there is no dot in its name, and its code does not end it. -/
structure BundleMethod.Plain (m : BundleMethod) : Prop where
  symbol : IsWord (m.owner ++ "." ++ m.name)
  name : byte '.' ∉ m.name
  desc : IsWord m.desc
  code : ∀ l ∈ m.code.lines.lines, (tokenize l).bind List.head? ≠ some (ofString ".end")
  exceptions : ∀ e ∈ m.exceptions, e.Plain

structure Bundle.Plain (b : Bundle) : Prop where
  classes : ∀ c ∈ b.classes, c.Plain
  methods : ∀ m ∈ b.methods, m.Plain

/-- A method is the one that a bundle describes. -/
structure BundleMethod.Describes (m : BundleMethod) (r : Method) : Prop where
  owner : r.owner = m.owner
  name : r.name = m.name
  desc : r.desc = m.desc
  isStatic : r.isStatic = m.isStatic
  rows : ∃ place, List.Forall₂ (Resolved place) (tableRows m.code ++ m.exceptions.map BundleException.row) r.exceptions

/-- A program has the classes and the methods of a bundle. -/
structure Bundle.Describes (b : Bundle) (p : Program) : Prop where
  classes : p.classes.map (fun c => (c.name, c.super, c.interfaces)) = b.classes.map BundleClass.outline
  methods : List.Forall₂ BundleMethod.Describes b.methods p.methods

/-! ## The lines of a bundle -/

/-- The words of the line that opens a class. -/
def BundleClass.words (c : BundleClass) : List Text :=
  [ofString ".class", c.name] ++ (if c.super.isEmpty then [] else [ofString "extends", c.super]) ++
    if c.interfaces.isEmpty then [] else ofString "implements" :: c.interfaces

def BundleField.line (f : BundleField) : Text := ofString ".field " ++ f.name ++ " " ++ f.desc

def BundleClass.lines (c : BundleClass) : List Text := wordLine c.words :: c.fields.map BundleField.line

/-- The words of the line that opens a method. -/
def BundleMethod.words (m : BundleMethod) : List Text :=
  ofString ".method" :: ((if m.isStatic then [ofString "static"] else []) ++ [m.owner ++ "." ++ m.name, m.desc])

/-- The words of the line of an exception. -/
def BundleException.words (e : BundleException) : List Text :=
  if e.isCleanup then [ofString ".finally", e.start, e.stop, e.handler]
  else [ofString ".try", e.start, e.stop, e.handler, if e.catchType.isEmpty then ofString "any" else e.catchType]

def BundleMethod.localsLines (m : BundleMethod) : List Text :=
  if 0 < m.locals then [ofString ".locals " ++ Text.ofInt m.locals] else []

/-- The lines of the code; a method without code has a line for it as well. -/
def BundleMethod.codeLines (m : BundleMethod) : List Text := if m.code = [] then [[]] else pieces m.code

def BundleMethod.bodyLines (m : BundleMethod) : List Text :=
  m.localsLines ++ m.codeLines ++ m.exceptions.map fun e => wordLine e.words

def BundleMethod.lines (m : BundleMethod) : List Text := wordLine m.words :: (m.bodyLines ++ [ofString ".end"])

theorem unlines_cons (l : Text) (ls : List Text) : unlines (l :: ls) = l ++ "\n" ++ unlines ls := rfl

theorem BundleClass.render_eq (h : c.render = .ok t) : t = unlines c.lines := by
  have hfields : unlines (c.fields.map BundleField.line) =
      (c.fields.map fun f => ofString ".field " ++ f.name ++ " " ++ f.desc ++ "\n").flatten := by
    simp [unlines, flatMap, Function.comp_def, BundleField.line]
    rfl
  unfold BundleClass.render at h
  split at h
  · cases h
  cases h
  rw [BundleClass.lines, unlines_cons, hfields]
  congr 2
  obtain ⟨name, super, interfaces, -⟩ := c
  -- The line is written word by word, and its words are known up to the interfaces.
  cases super <;> cases interfaces <;>
  · simp only [BundleClass.words, isEmpty_nil, isEmpty_cons, if_true, Bool.false_eq_true, if_false, cons_append,
      nil_append, append_nil, wordLine_cons, append_assoc]
    rfl

theorem BundleException.render_eq (e : BundleException) : e.render = wordLine e.words ++ "\n" := by
  unfold BundleException.render BundleException.words
  split <;>
  · simp only [wordLine_cons, append_assoc]
    rfl

theorem BundleMethod.render_eq (h : m.render = .ok t) : t = unlines m.lines := by
  have hcode : (if isSuffixOf [10] m.code then m.code else m.code ++ "\n") = unlines m.codeLines := by
    unfold BundleMethod.codeLines
    by_cases hnil : m.code = []
    · rw [if_pos hnil, hnil]
      rfl
    · rw [if_neg hnil, unlines_pieces, closed]
      simp only [hnil, false_or, ← isSuffixOf_iff_suffix]
      rfl
  have hexceptions : unlines (m.exceptions.map fun e => wordLine e.words) = (m.exceptions.map BundleException.render).flatten := by
    have hrender : BundleException.render = fun e => wordLine e.words ++ [10] := funext BundleException.render_eq
    rw [hrender, unlines, flatMap_map]
    rfl
  have hlocals : unlines m.localsLines = if 0 < m.locals then ".locals " ++ ofInt m.locals ++ "\n" else [] := by
    unfold BundleMethod.localsLines
    split
    · simp [unlines]
      rfl
    · rfl
  have hopen : wordLine m.words = ".method " ++ (if m.isStatic then "static " else [] : Text) ++ m.owner ++ "." ++ m.name ++ " " ++ m.desc := by
    unfold BundleMethod.words
    cases m.isStatic <;>
    · simp only [if_true, Bool.false_eq_true, if_false, cons_append, nil_append, wordLine_cons,
        append_assoc]
      rfl
  unfold BundleMethod.render at h
  split at h
  · cases h
  cases h
  rw [BundleMethod.lines, unlines_cons, unlines_append, BundleMethod.bodyLines, unlines_append, unlines_append,
    hlocals, ← hcode, hexceptions, hopen]
  simp only [append_assoc]
  rfl

/-! ## Reading -/

section Reading

variable {n : Nat} {r r' : Reading} {e : BundleException}

theorem readLines_append {ls' : List Text} (h : readLines n r (ls ++ ls') = .ok r') :
    ∃ k r1, readLines n r ls = .ok r1 ∧ readLines k r1 ls' = .ok r' := by
  induction ls generalizing n r with
  | nil => exact ⟨n, r, rfl, h⟩
  | cons l ls ih =>
    rw [cons_append, readLines] at h
    rw [readLines]
    split at h
    · cases h
    · exact ih h
    · split at h
      · cases h
      · exact ih h

/-- A line that is read has tokens that are taken in, or none. -/
theorem readLines_cons (h : readLines n r (l :: ls) = .ok r') : (tokenize l = some [] ∧ readLines (n + 1) r ls = .ok r') ∨
      ∃ head args r1, tokenize l = some (head :: args) ∧ readLine r n head args = .ok r1 ∧ readLines (n + 1) r1 ls = .ok r' := by
  rw [readLines] at h
  split at h
  · cases h
  · rename_i htokens
    exact .inl ⟨htokens, h⟩
  · rename_i head args htokens
    split at h
    · cases h
    · rename_i r1 hline
      exact .inr ⟨head, args, r1, htokens, hline, h⟩

theorem readLines_words (head : Text) (args : List Text) (hws : ∀ w ∈ head :: args, IsWord w)
    (h : readLines n r (chomp (wordLine (head :: args)) :: ls) = .ok r') :
    ∃ r1, readLine r n head args = .ok r1 ∧ readLines (n + 1) r1 ls = .ok r' := by
  have htokens := tokenize_wordLine hws
  rcases readLines_cons h with ⟨hnil, -⟩ | ⟨head', args', r1, htokens', hline, h⟩
  · cases htokens.symm.trans hnil
  · cases htokens.symm.trans htokens'
    exact ⟨r1, hline, h⟩

/-- The first token of a line that a word stands in front of. -/
theorem tokenize_chomp_front {w : Text} (hw : IsToken w) (hret : 13 ∉ w) (rest : Text) :
    tokenize (chomp (w ++ byte ' ' :: rest)) = (tokenize (chomp rest)).map (w :: ·) := by
  rw [chomp_append hret, chomp_cons rest (by decide), tokenize_front hw]

/-- What is kept of a class. -/
def outlineOf (c : ClassRef) : Text × Text × List Text := (c.name, c.super, c.interfaces)

theorem outlineOf_addField (classes : List ClassRef) (name desc : Text) :
    (addField classes name desc).map outlineOf = classes.map outlineOf := by
  cases classes <;> rfl

theorem readLine_field {args : List Text} (h : readLine r n (ofString ".field") args = .ok r') :
    r'.current = none ∧ r.current = none ∧ r'.methods = r.methods ∧ r'.classes.map outlineOf = r.classes.map outlineOf := by
  unfold readLine at h
  rw [if_neg (by decide), if_pos rfl] at h
  split at h
  · rename_i name desc _ hcur
    split at h
    · cases h
    · cases h
      exact ⟨hcur, hcur, rfl, outlineOf_addField _ _ _⟩
  · cases h

theorem readLines_fields {fs : List BundleField} (hcur : r.current = none)
    (h : readLines n r (fs.map fun f => chomp f.line) = .ok r') :
    r'.current = none ∧ r'.methods = r.methods ∧ r'.classes.map outlineOf = r.classes.map outlineOf := by
  induction fs generalizing n r with
  | nil =>
    cases h
    exact ⟨hcur, rfl, rfl⟩
  | cons f fs ih =>
    have hline : f.line = ofString ".field" ++ byte ' ' :: (f.name ++ " " ++ f.desc) := by
      simp only [BundleField.line, append_assoc]
      rfl
    have hfront {ts : List Text} (hts : tokenize (chomp f.line) = some ts) : ts = ofString ".field" :: ts.tail := by
      rw [hline, tokenize_chomp_front (by decide) (by decide)] at hts
      obtain ⟨us, -, rfl⟩ := Option.map_eq_some_iff.1 hts
      rfl
    rcases readLines_cons h with ⟨hnil, -⟩ | ⟨head, args, r1, htokens, hline, h⟩
    · cases hfront hnil
    · cases hfront htokens
      obtain ⟨hcur1, -, hm1, hc1⟩ := readLine_field hline
      obtain ⟨hcur', hm', hc'⟩ := ih hcur1 h
      exact ⟨hcur', hm'.trans hm1, hc'.trans hc1⟩

theorem BundleClass.Plain.words (h : c.Plain) : ∀ w ∈ c.words, IsWord w := by
  unfold BundleClass.words
  simp only [forall_mem_append, forall_mem_cons]
  refine ⟨⟨⟨by decide, h.name, by simp⟩, ?_⟩, ?_⟩
  · split
    · simp
    · rename_i hne
      simp only [List.isEmpty_iff] at hne
      simpa using ⟨by decide, h.super.resolve_left hne⟩
  · split
    · simp
    · exact forall_mem_cons.2 ⟨by decide, h.interfaces⟩

theorem classHeader_words (c : BundleClass) : ∃ d, classHeader c.words.tail = .ok d ∧ outlineOf d = c.outline := by
  have hhead : c.words.tail = c.name :: ((if c.super.isEmpty then [] else [ofString "extends", c.super]) ++
      if c.interfaces.isEmpty then [] else ofString "implements" :: c.interfaces) := rfl
  have himplements : ¬ ofString "implements" = ofString "extends" := by decide
  rw [hhead, classHeader]
  unfold BundleClass.outline
  cases c.super with
  | nil =>
    cases hi : c.interfaces with
    | nil => exact ⟨_, rfl, rfl⟩
    | cons i is =>
      refine ⟨⟨c.name, ofString "java/lang/Object", i :: is, []⟩, ?_, rfl⟩
      simp only [isEmpty_nil, isEmpty_cons, if_true, Bool.false_eq_true, if_false, nil_append, classHeaderFrom, himplements]
      rfl
  | cons b s =>
    cases hi : c.interfaces with
    | nil => exact ⟨⟨c.name, b :: s, [], []⟩, by simp [classHeaderFrom], rfl⟩
    | cons i is =>
      refine ⟨⟨c.name, b :: s, i :: is, []⟩, ?_, rfl⟩
      simp [classHeaderFrom, himplements]

theorem readLines_class (hc : c.Plain) (hcur : r.current = none) (h : readLines n r (c.lines.map chomp) = .ok r') :
    r'.current = none ∧ r'.methods = r.methods ∧ r'.classes.map outlineOf = c.outline :: r.classes.map outlineOf := by
  rw [BundleClass.lines, map_cons, map_map] at h
  obtain ⟨r1, hline, h⟩ := readLines_words (ofString ".class") c.words.tail hc.words h
  obtain ⟨d, hd, houtline⟩ := classHeader_words c
  unfold readLine at hline
  rw [if_pos rfl, hcur, hd] at hline
  cases hline
  obtain ⟨hcur', hm', hc'⟩ := readLines_fields rfl h
  exact ⟨hcur', hm', hc'.trans (congrArg (· :: _) houtline)⟩

theorem readLines_classes {cs : List BundleClass} (hcs : ∀ c ∈ cs, c.Plain) (hcur : r.current = none)
    (h : readLines n r ((cs.flatMap BundleClass.lines).map chomp) = .ok r') :
    r'.current = none ∧ r'.methods = r.methods ∧ r'.classes.map outlineOf = (cs.map BundleClass.outline).reverse ++ r.classes.map outlineOf := by
  induction cs generalizing n r with
  | nil =>
    cases h
    exact ⟨hcur, rfl, rfl⟩
  | cons c cs ih =>
    obtain ⟨hc, hcs⟩ := forall_mem_cons.1 hcs
    rw [flatMap_cons, map_append] at h
    obtain ⟨k, r1, h1, h⟩ := readLines_append h
    obtain ⟨hcur1, hm1, hc1⟩ := readLines_class hc hcur h1
    obtain ⟨hcur', hm', hc'⟩ := ih hcs hcur1 h
    refine ⟨hcur', hm'.trans hm1, ?_⟩
    rw [hc', hc1]
    simp

theorem readLine_body {m : MethodText} {head : Text} {args : List Text} (hcur : r.current = some m)
    (hend : head ≠ ofString ".end") (h : readLine r n head args = .ok r') :
    r' = { r with current := some { m with body := ⟨n, head, args⟩ :: m.body } } := by
  simp only [readLine, hcur, Option.isSome_some, if_true, if_neg hend] at h
  split at h
  · cases h
  split at h
  · split at h
    · contradiction
    · cases h
  · split at h
    · cases h
    · exact (Except.ok.inj h).symm

theorem readLines_body {m : MethodText} (hend : ∀ l ∈ ls, (tokenize l).bind head? ≠ some (ofString ".end"))
    (hcur : r.current = some m) (h : readLines n r ls = .ok r') :
    ∃ new, r' = { r with current := some { m with body := new.reverse ++ m.body } } ∧ bodyRows new = ls.filterMap textRow? := by
  induction ls generalizing n r m with
  | nil =>
    cases h
    refine ⟨[], ?_, rfl⟩
    rw [reverse_nil, nil_append, ← hcur]
  | cons l ls ih =>
    obtain ⟨hl, hls⟩ := forall_mem_cons.1 hend
    rcases readLines_cons h with ⟨hnil, h⟩ | ⟨head, args, r1, htokens, hline, h⟩
    · obtain ⟨new, hr', hrows⟩ := ih hls hcur h
      refine ⟨new, hr', ?_⟩
      rw [filterMap_cons, textRow?, hnil]
      exact hrows
    have hhead : head ≠ ofString ".end" := fun heq => hl (by rw [htokens, heq]; rfl)
    obtain rfl := readLine_body hcur hhead hline
    obtain ⟨new, hr', hrows⟩ := ih hls rfl h
    refine ⟨⟨n, head, args⟩ :: new, ?_, ?_⟩
    · rw [hr']
      simp
    · rw [filterMap_cons, textRow?, htokens]
      unfold bodyRows at hrows ⊢
      rw [filterMap_cons, hrows]

/-! ## Methods -/

theorem BundleException.Plain.words (h : e.Plain) : ∀ w ∈ e.words, IsWord w := by
  unfold BundleException.words
  split
  · simpa using ⟨by decide, h.start, h.stop, h.handler⟩
  have htype : IsWord (if e.catchType.isEmpty then ofString "any" else e.catchType) := by
    split
    · exact by decide
    · rename_i hne
      rw [List.isEmpty_iff] at hne
      exact (h.catchType.resolve_left hne).2
  simp only [forall_mem_cons]
  exact ⟨by decide, h.start, h.stop, h.handler, htype, by simp⟩

/-- The line of an exception stands for its row. -/
theorem BundleException.Plain.textRow? (h : e.Plain) : Source.textRow? (chomp (wordLine e.words)) = some e.row := by
  rw [Source.textRow?, tokenize_wordLine h.words]
  unfold BundleException.words BundleException.row
  by_cases hc : e.isCleanup = true
  · obtain hnil : e.catchType = [] := h.catchType.resolve_right fun hty => by rw [hc] at hty; cases hty.1
    rw [if_pos hc, hnil, hc]
    rfl
  rw [if_neg hc, Bool.not_eq_true] at *
  rw [hc]
  by_cases hnil : e.catchType = []
  · rw [hnil]
    rfl
  · rw [if_neg (by simpa using hnil)]
    rfl

theorem head_exceptionLine (h : e.Plain) :
    (tokenize (chomp (wordLine e.words))).bind head? ≠ some (ofString ".end") := by
  rw [tokenize_wordLine h.words]
  unfold BundleException.words
  split <;> exact fun heq => absurd (Option.some.inj heq) (by decide)

/-- The line that asks for local variables is neither the end of a method nor a row. -/
theorem localsLine (h : l ∈ m.localsLines) :
    (tokenize (chomp l)).bind head? ≠ some (ofString ".end") ∧ textRow? (chomp l) = none := by
  unfold BundleMethod.localsLines at h
  split at h
  · have hlit : ofString ".locals " = ofString ".locals" ++ [byte ' '] := rfl
    rw [mem_singleton.1 h, hlit, append_assoc, singleton_append, textRow?,
      tokenize_chomp_front (by decide) (by decide)]
    cases tokenize (chomp (ofInt m.locals)) with
    | none => exact ⟨by simp, rfl⟩
    | some ts => exact ⟨fun heq => absurd (Option.some.inj heq) (by decide), rfl⟩
  · cases h

theorem codeLines_chomp (hshort : ∀ l ∈ pieces m.code, l.length < lineLimit) :
    m.codeLines.map chomp = if m.code = [] then [[]] else m.code.lines.lines := by
  unfold BundleMethod.codeLines
  split
  · rfl
  · rw [lines_eq_pieces hshort]

/-- The lines of a body do not end the method. -/
theorem BundleMethod.Plain.head_bodyLines (h : m.Plain) (hshort : ∀ l ∈ pieces m.code, l.length < lineLimit) :
    ∀ l ∈ m.bodyLines.map chomp, (tokenize l).bind head? ≠ some (ofString ".end") := by
  unfold BundleMethod.bodyLines
  simp only [map_append, forall_mem_append]
  refine ⟨⟨?_, ?_⟩, ?_⟩
  · simpa using fun l hl => (localsLine hl).1
  · rw [codeLines_chomp hshort]
    split
    · exact fun l hl => by rw [mem_singleton.1 hl]; decide
    · exact h.code
  · simpa using fun e he => head_exceptionLine (h.exceptions e he)

/-- The rows of a body are those of its code and then those of the exceptions. -/
theorem BundleMethod.Plain.rows_bodyLines (h : m.Plain) (hshort : ∀ l ∈ pieces m.code, l.length < lineLimit) :
    (m.bodyLines.map chomp).filterMap textRow? = tableRows m.code ++ m.exceptions.map BundleException.row := by
  have hlocals : (m.localsLines.map chomp).filterMap textRow? = [] := by
    rw [filterMap_eq_nil_iff]
    simpa using fun l hl => (localsLine hl).2
  have hcode : (m.codeLines.map chomp).filterMap textRow? = tableRows m.code := by
    rw [codeLines_chomp hshort, tableRows]
    split
    · rename_i hnil
      rw [hnil]
      rfl
    · rfl
  have hexceptions : ((m.exceptions.map fun e => wordLine e.words).map chomp).filterMap textRow? =
      m.exceptions.map BundleException.row := by
    rw [map_map, filterMap_map, ← filterMap_eq_map]
    exact filterMap_congr fun e he => (h.exceptions e he).textRow?
  unfold BundleMethod.bodyLines
  rw [map_append, map_append, filterMap_append, filterMap_append, hlocals, hcode, hexceptions, nil_append]

theorem BundleMethod.Plain.words (h : m.Plain) : ∀ w ∈ m.words, IsWord w := by
  refine forall_mem_cons.2 ⟨by decide, forall_mem_append.2 ⟨?_, ?_⟩⟩
  · split
    · simpa using by decide
    · simp
  · simp only [forall_mem_cons]
    exact ⟨h.symbol, h.desc, by simp⟩

/-- A method that was read has the header and the rows of a bundled method. -/
def Written (m : BundleMethod) (x : MethodText) : Prop :=
  x.header = m.words.tail ∧ bodyRows x.body.reverse = tableRows m.code ++ m.exceptions.map BundleException.row

theorem readLines_method (hm : m.Plain) (hshort : ∀ l ∈ pieces m.code, l.length < lineLimit)
    (hcur : r.current = none) (h : readLines n r (m.lines.map chomp) = .ok r') :
    ∃ x, Written m x ∧ r'.current = none ∧ r'.classes = r.classes ∧ r'.methods = x :: r.methods := by
  rw [BundleMethod.lines, map_cons, map_append] at h
  obtain ⟨r1, hline, h⟩ := readLines_words (ofString ".method") m.words.tail hm.words h
  unfold readLine at hline
  rw [if_neg (by decide), if_neg (by decide), if_pos rfl, hcur] at hline
  cases hline
  obtain ⟨k, r2, hbody, h⟩ := readLines_append h
  obtain ⟨new, rfl, hrows⟩ := readLines_body (hm.head_bodyLines hshort) rfl hbody
  obtain ⟨r3, hline, h⟩ := readLines_words (ofString ".end") [] (by simpa using by decide) h
  cases hline
  cases h
  refine ⟨_, ⟨rfl, ?_⟩, rfl, rfl, rfl⟩
  rw [append_nil, reverse_reverse, hrows, hm.rows_bodyLines hshort]

theorem readLines_methods {ms : List BundleMethod} (hms : ∀ m ∈ ms, m.Plain)
    (hshort : ∀ m ∈ ms, ∀ l ∈ pieces m.code, l.length < lineLimit) (hcur : r.current = none)
    (h : readLines n r ((ms.flatMap BundleMethod.lines).map chomp) = .ok r') :
    ∃ xs, Forall₂ Written ms xs ∧ r'.current = none ∧ r'.classes = r.classes ∧ r'.methods = xs.reverse ++ r.methods := by
  induction ms generalizing n r with
  | nil =>
    cases h
    exact ⟨[], .nil, hcur, rfl, rfl⟩
  | cons m ms ih =>
    obtain ⟨hm, hms⟩ := forall_mem_cons.1 hms
    obtain ⟨hs, hshort⟩ := forall_mem_cons.1 hshort
    rw [flatMap_cons, map_append] at h
    obtain ⟨k, r1, h1, h⟩ := readLines_append h
    obtain ⟨x, hx, hcur1, hc1, hm1⟩ := readLines_method hm hs hcur h1
    obtain ⟨xs, hxs, hcur', hc', hm'⟩ := ih hms hshort hcur1 h
    refine ⟨x :: xs, .cons hx hxs, hcur', hc'.trans hc1, ?_⟩
    rw [hm', hm1]
    simp

end Reading

/-! ## Programs -/

/-- What is rendered one by one stands as lines one behind the other. -/
theorem flatten_render {α ε : Type} {render : α → Except ε Text} {lines : α → List Text}
    (hrender : ∀ {x t}, render x = .ok t → t = unlines (lines x)) {xs : List α} {ts : List Text} (h : xs.mapM render = .ok ts) :
    ts.flatten = unlines (xs.flatMap lines) := by
  have hts := forall₂_of_mapM_ok h
  clear h
  induction hts with
  | nil => rfl
  | cons hx _ ih => rw [flatten_cons, flatMap_cons, unlines_append, ih, hrender hx]

/-- A method that is rendered has an owner and a name. -/
theorem BundleMethod.names_of_render (h : m.render = .ok t) : m.owner ≠ [] ∧ m.name ≠ [] := by
  unfold BundleMethod.render at h
  split at h
  · cases h
  · rename_i hnames
    simp only [Bool.or_eq_true, List.isEmpty_iff, not_or] at hnames
    exact hnames.1

/-- The layouts of classes keep what bundles say of them. -/
theorem outlineOf_layouts (classes : List ClassRef) : (layouts classes).map outlineOf = classes.map outlineOf := by
  have hfold (a : Assembler) (out : List ClassRef) :
      (classes.foldl (fun (p : Assembler × List ClassRef) c => (p.1.declareClass c, p.1.layout c :: p.2)) (a, out)).2.map outlineOf =
        (classes.map outlineOf).reverse ++ out.map outlineOf := by
    induction classes generalizing a out with
    | nil => rfl
    | cons c classes ih =>
      rw [foldl_cons, ih]
      simp [outlineOf, layout]
  unfold layouts
  rw [map_reverse, hfold]
  simp

theorem cutAtLast_append {x y : Text} {c : UInt8} (h : c ∉ y) : cutAtLast c (x ++ c :: y) = some (x, y) := by
  unfold cutAtLast
  rw [reverse_append, reverse_cons, append_assoc, singleton_append,
    cutAt_append (by simpa using h)]
  simp

theorem BundleMethod.Plain.splitMember (h : m.Plain) (ho : m.owner ≠ []) (hn : m.name ≠ []) :
    splitMember? (m.owner ++ "." ++ m.name) = some (m.owner, m.name) := by
  have hsymbol : m.owner ++ "." ++ m.name = m.owner ++ byte '.' :: m.name := append_assoc _ _ _
  unfold splitMember?
  rw [hsymbol, cutAtLast_append h.name]
  obtain ⟨c, owner, hc⟩ := exists_cons_of_ne_nil ho
  obtain ⟨d, name, hd⟩ := exists_cons_of_ne_nil hn
  rw [hc, hd]

theorem BundleClass.Plain.oneLine (h : c.Plain) : ∀ l ∈ c.lines, OneLine l := by
  refine forall_mem_cons.2 ⟨oneLine_wordLine h.words, ?_⟩
  simp only [forall_mem_map]
  exact fun f hf => by simp +decide [BundleField.line, h.fields f hf]

theorem BundleMethod.Plain.oneLine (h : m.Plain) : ∀ l ∈ m.lines, OneLine l := by
  unfold BundleMethod.lines BundleMethod.bodyLines
  simp only [forall_mem_cons, forall_mem_append, forall_mem_map]
  refine ⟨oneLine_wordLine h.words, ⟨⟨?_, ?_⟩, fun e he => oneLine_wordLine (h.exceptions e he).words⟩, by decide, by simp⟩
  · unfold BundleMethod.localsLines
    split
    · simp +decide
    · simp
  · unfold BundleMethod.codeLines
    split
    · simp
    · exact fun l hl => oneLine_pieces hl

/-- A method that is written as a bundle says is assembled to the method that the bundle describes. -/
theorem BundleMethod.Plain.describes (hm : m.Plain) (ho : m.owner ≠ []) (hn : m.name ≠ [])
    {classes : List ClassRef} {x : MethodText} {y : Method} (hx : Written m x) (h : assembleMethod classes x = .ok y) :
    m.Describes y := by
  obtain ⟨k, header, body⟩ := x
  obtain ⟨rfl, hrows⟩ := hx
  have hne : m.owner ++ "." ++ m.name ≠ ofString "static" := fun heq => by
    have hdot : byte '.' ∈ m.owner ++ "." ++ m.name := mem_append_left _ (mem_append_right _ (by decide))
    rw [heq] at hdot
    exact absurd hdot (by decide)
  obtain ⟨h1, h2, h3, h4, place, h5⟩ := assembleMethod_rows (hm.splitMember ho hn) hne h
  exact ⟨h1, h2, h3, h4, place, hrows ▸ h5⟩

theorem describes_methods {classes : List ClassRef} {ms : List BundleMethod} {ts : List Text} {xs : List MethodText} {ys : List Method}
    (hms : ∀ m ∈ ms, m.Plain) (hts : Forall₂ (fun m t => m.render = .ok t) ms ts) (hxs : Forall₂ Written ms xs)
    (hys : Forall₂ (fun x y => assembleMethod classes x = .ok y) xs ys) : Forall₂ BundleMethod.Describes ms ys := by
  induction hxs generalizing ts ys with
  | nil =>
    cases hys
    exact .nil
  | cons hx _ ih =>
    obtain ⟨hm, hms⟩ := forall_mem_cons.1 hms
    cases hts with
    | cons ht hts =>
      cases hys with
      | cons hy hys =>
        obtain ⟨ho, hn⟩ := BundleMethod.names_of_render ht
        exact .cons (hm.describes ho hn hx hy) (ih hms hts hys)

/-- **A plain bundle is loaded as the program that it describes.** -/
theorem Bundle.program_describes {b : Bundle} {p : Program} (hb : b.Plain) (h : b.program = .ok p) : b.Describes p := by
  obtain ⟨source, hsource, h⟩ := exists_of_bind_ok h
  obtain ⟨cs, hcs, hsource⟩ := exists_of_bind_ok hsource
  obtain ⟨ms, hms, hsource⟩ := exists_of_bind_ok hsource
  cases hsource
  have hlines : cs.flatten ++ ms.flatten = unlines (b.classes.flatMap BundleClass.lines ++ b.methods.flatMap BundleMethod.lines) := by
    rw [flatten_render BundleClass.render_eq hcs, flatten_render BundleMethod.render_eq hms, Text.unlines_append]
  have hone : ∀ l ∈ b.classes.flatMap BundleClass.lines ++ b.methods.flatMap BundleMethod.lines, OneLine l := by
    simp only [List.forall_mem_append, List.mem_flatMap, forall_exists_index, and_imp]
    exact ⟨fun l c hc hl => (hb.classes c hc).oneLine l hl, fun l m hm hl => (hb.methods m hm).oneLine l hl⟩
  cases hparse : parse (cs.flatten ++ ms.flatten) with
  | error e =>
    rw [hparse] at h
    cases h
  | ok q =>
    rw [hparse] at h
    obtain rfl : q = p := Except.ok.inj h
    obtain ⟨r, hlong, hread, hmethods, hclasses⟩ := parse_eq_ok hparse
    rw [hlines] at hlong hread
    have hshort := Text.length_lt_of_tooLong hone hlong
    rw [Text.lines_unlines hone hlong, List.map_append] at hread
    obtain ⟨k, r₁, hread₁, hread⟩ := readLines_append hread
    obtain ⟨hcur₁, hm₁, hc₁⟩ := readLines_classes hb.classes rfl hread₁
    have hcode : ∀ m ∈ b.methods, ∀ l ∈ pieces m.code, l.length < lineLimit := fun m hm l hl => by
      refine hshort l (List.mem_append_right _ (List.mem_flatMap.2 ⟨m, hm, ?_⟩))
      have hne : m.code ≠ [] := fun hnil => by
        rw [hnil] at hl
        cases hl
      simp [BundleMethod.lines, BundleMethod.bodyLines, BundleMethod.codeLines, hne, hl]
    obtain ⟨xs, hxs, -, hc, hm⟩ := readLines_methods hb.methods hcode hcur₁ hread
    refine ⟨?_, ?_⟩
    · rw [hclasses]
      change (layouts r.classes.reverse).map outlineOf = _
      rw [outlineOf_layouts, hc, List.map_reverse, hc₁]
      simp
    · rw [hm, hm₁, List.append_nil, List.reverse_reverse] at hmethods
      exact describes_methods hb.methods (forall₂_of_mapM_ok hms) hxs (forall₂_of_mapM_ok hmethods)

/-! ## A bundle with a class and a method -/

/-- A class with a superclass and two interfaces, and a method of a class with a dot in its name. The exception table of
the method has a row in its code and one that the bundle gives. -/
def rangedBundle : Bundle where
  classes := [{ name := "A", super := "B", interfaces := [ofString "I", ofString "J"] }]
  methods := [{ owner := "p.T", name := "f", desc := "()V", isStatic := true
                code := ofString "from:\nreturn\nto:\n.finally from to to"
                exceptions := [{ start := ofString "from", stop := ofString "to", handler := ofString "to",
                                 catchType := "E" }] }]

def rangedBody : List BodyLine :=
  ⟨3, ofString "from" ++ [byte ':'], []⟩ :: ([⟨4, ofString "return", []⟩] ++
    ⟨5, ofString "to" ++ [byte ':'], []⟩ :: [⟨6, ofString ".finally", [ofString "from", ofString "to", ofString "to"]⟩,
      ⟨7, ofString ".try", [ofString "from", ofString "to", ofString "to", ofString "E"]⟩])

theorem rangedBundle_plain : rangedBundle.Plain := by
  constructor
  · simp only [rangedBundle, forall_mem_singleton]
    refine ⟨by decide, .inr (by decide), ?_, by simp⟩
    simpa using ⟨by decide, by decide⟩
  · simp only [rangedBundle, forall_mem_singleton]
    refine ⟨by decide, by decide, by decide, by decide +kernel, ?_⟩
    simp only [forall_mem_singleton]
    exact ⟨by decide, by decide, by decide, .inr ⟨rfl, by decide⟩⟩

def rangedClass : ClassRef := ⟨ofString "A", ofString "B", [ofString "I", ofString "J"], []⟩

/-- The assembler before the body, which knows the class. -/
def rangedStart : Assembler :=
  [rangedClass].foldl Assembler.declareClass
    { owner := ofString "p.T", name := ofString "f", desc := ofString "()V", isStatic := true }

/-- The assembler behind the body. -/
def rangedAssembler : Assembler := { rangedStart with
  code := #[0xb1]
  labels := (({} : Std.HashMap Text Nat).insert (ofString "from") 0).insert (ofString "to") 1
  tries := #[⟨ofString "from", ofString "to", ofString "to", [], true⟩,
    ⟨ofString "from", ofString "to", ofString "to", ofString "E", false⟩] }

set_option maxRecDepth 2000 in
theorem assembleBody_ranged : assembleBody rangedStart rangedBody = .ok rangedAssembler := by
  refine (assembleBody_label Std.HashMap.contains_empty rfl).trans ?_
  refine (assembleBody_writes [0xb1] (.cons (fun _ => rfl) .nil) rfl).trans ?_
  refine (assembleBody_label ?_ rfl).trans rfl
  simp only [rangedStart, foldl_cons, foldl_nil, declareClass, Std.HashMap.contains_insert, Std.HashMap.contains_empty]
  decide

theorem build_ranged : ∃ m, rangedAssembler.build.2 = .ok m := by
  have hfrom : rangedAssembler.labels[ofString "from"]? = some 0 := by
    rw [rangedAssembler, Std.HashMap.getElem?_insert, if_neg (by decide), Std.HashMap.getElem?_insert_self]
  have hto : rangedAssembler.labels[ofString "to"]? = some 1 := Std.HashMap.getElem?_insert_self
  refine ⟨_, build_ok (t := ⟨[], ⟨.void, ofString "V"⟩⟩)
    (r := [⟨0, 1, 1, [], true⟩, ⟨0, 1, 1, ofString "E", false⟩]) rfl (by decide +kernel) rfl ?_⟩
  refine (mapM_cons ..).trans ?_
  rw [resolveTry_ok hfrom hto hto, mapM_cons, resolveTry_ok hfrom hto hto]
  rfl

theorem Bundle.program_of_parse {b : Bundle} {source : Text} {p : Program} (hrender : b.render = .ok source)
    (hparse : parse source = .ok p) : b.program = .ok p := by
  unfold Bundle.program
  rw [hrender]
  simp only [bind, Except.bind, hparse]
  rfl

/-- The bundle is loaded, and the program is the one that it describes. -/
theorem rangedBundle_described : ∃ p, rangedBundle.Plain ∧ rangedBundle.program = .ok p ∧ rangedBundle.Describes p := by
  obtain ⟨source, hrender, hlong, hread⟩ : ∃ source, rangedBundle.render = .ok source ∧ source.lines.tooLong = false ∧
      readLines 1 {} source.lines.lines = .ok { classes := [rangedClass], methods := [
        ⟨2, [ofString "static", ofString "p.T.f", ofString "()V"], rangedBody.reverse⟩] } :=
    ⟨ofString ".class A extends B implements I J\n.method static p.T.f ()V\nfrom:\nreturn\nto:\n.finally from to to\n.try from to to E\n.end\n",
      by decide +kernel, by decide +kernel, by decide +kernel⟩
  obtain ⟨m, hm⟩ := build_ranged
  have hsplit : splitMember? (ofString "p.T.f") = some (ofString "p.T", ofString "f") := by decide
  have hmethods : [⟨2, [ofString "static", ofString "p.T.f", ofString "()V"], rangedBody.reverse⟩].mapM
      (assembleMethod [rangedClass]) = .ok [m] := by
    rw [List.mapM_cons, assembleMethod_static [rangedClass] 2 hsplit assembleBody_ranged hm]
    rfl
  have hprogram := Bundle.program_of_parse hrender (parse_of_readLines hread hlong rfl hmethods)
  exact ⟨_, rangedBundle_plain, hprogram, Bundle.program_describes rangedBundle_plain hprogram⟩

/-! ## A name that is no word -/

/-- A class whose name says that it has a superclass. -/
def disguisedBundle : Bundle := { classes := [{ name := "A extends B" }] }

/-- **A name that is no word is loaded as something else.** -/
theorem disguisedClass_not_described : ∃ p, disguisedBundle.program = .ok p ∧ ¬ disguisedBundle.Describes p := by
  have hread : readLines 1 {} (ofString ".class A extends B\n").lines.lines = .ok
      { classes := [⟨ofString "A", ofString "B", [], []⟩], inClass := true } := by decide +kernel
  have hrender : disguisedBundle.render = .ok (ofString ".class A extends B\n") := by decide +kernel
  refine ⟨_, Bundle.program_of_parse hrender (parse_of_readLines hread (by decide +kernel) rfl rfl), fun h => ?_⟩
  have hclasses := h.classes
  change (layouts _).map outlineOf = _ at hclasses
  rw [outlineOf_layouts] at hclasses
  revert hclasses
  decide

end Source

end Bytelift
