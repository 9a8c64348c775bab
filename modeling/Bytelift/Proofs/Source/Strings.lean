import Bytelift.Proofs.Code.Truncation
import Bytelift.Proofs.Source.Assembly
import Bytelift.Proofs.Source.Bundles
import Bytelift.Proofs.Source.Calling
import Bytelift.Proofs.Text.Quoting

/-!
# String constants in sources

A string constant is written as a quoted text. Whatever the text holds, its quoted form is one token:
a quote or a backslash in it stands behind a backslash, and the tokenizer steps over both. So every
text can be loaded by a line of a body, as long as the index of the constant fits into two bytes.

Results:
* `stringLine_loads`: **a line of a body loads the text that it quotes.**
-/

namespace Bytelift

open List
open Text (byte ofString OneLine)

namespace Source

variable {t u : Text}

/-! ## Quoted tokens -/

/-- A piece of a quoted text that does not end it. -/
def Inside (t : Text) : Prop :=
  ∀ rev u acc, tokensFrom (.quoted rev) (t ++ u) acc = tokensFrom (.quoted (t.reverse ++ rev)) u acc

theorem Inside.append (ht : Inside t) (hu : Inside u) : Inside (t ++ u) := by
  intro rev v acc
  rw [append_assoc, ht, hu, reverse_append, append_assoc]

theorem inside_plain (h : Text.Bare t) : Inside t := by
  intro rev u acc
  induction t generalizing rev with
  | nil => rfl
  | cons b t ih =>
    obtain ⟨⟨-, hquote, hslash⟩, h⟩ := forall_mem_cons.1 h
    have hstep (v : Text) :
        tokensFrom (.quoted rev) (b :: v) acc = tokensFrom (.quoted (b :: rev)) v acc := by
      rw [tokensFrom]
      exact (if_neg hquote).trans (if_neg hslash)
    rw [cons_append, hstep, ih h, reverse_cons, append_assoc, singleton_append]

/-- What stands behind a backslash does not end a quoted text. -/
theorem inside_escape (b : UInt8) (h : Text.Bare t) : Inside (92 :: b :: t) := by
  intro rev u acc
  exact (inside_plain h (b :: 92 :: rev) u acc).trans (by simp)

theorem inside_runes (s : Text) :
    ∀ rs ⊆ Text.runes s, Inside (rs.flatMap (Text.escapeRune '"')) := by
  intro rs hrs
  induction rs with
  | nil => exact inside_plain (t := []) nofun
  | cons r rs ih =>
    obtain ⟨hr, hrs⟩ := cons_subset.1 hrs
    refine .append ?_ (ih hrs)
    rcases Text.escapeRune_cases hr with ⟨b, u, heq, -, hu⟩ | hbare
    · exact heq ▸ inside_escape b hu
    · exact inside_plain hbare

/-- **A quoted text is one token**, whatever follows it. -/
theorem tokensFrom_quote (s rest : Text) (acc : List Text) :
    tokensFrom .between (s.quote ++ rest) acc = tokensFrom .between rest (s.quote :: acc) := by
  have hquote : s.quote = 34 :: ((Text.runes s).flatMap (Text.escapeRune '"') ++ [34]) := rfl
  have hinside := inside_runes s (Text.runes s) (Subset.refl _) [34] (34 :: rest) acc
  rw [hquote, cons_append, append_assoc, singleton_append]
  refine hinside.trans ?_
  change tokensFrom .between rest ((34 :: (reverse _ ++ [34])).reverse :: acc) = _
  simp

/-- A line that loads a text, with blanks and commas behind it and then perhaps a comment. -/
def stringLine (s gap comment : Text) : Text := "ldc " ++ s.quote ++ (gap ++ comment)

/-- What follows the text that a line loads. -/
structure Trails (gap comment : Text) : Prop where
  blanks : ∀ b ∈ gap, isSeparator b = true
  sign : ∀ b ∈ comment.head?, b = byte '#'
  oneLine : OneLine comment
  last : comment.getLast? ≠ some 13

variable {s gap comment : Text}

/-- **A line that loads a text has two tokens.** -/
theorem tokenize_stringLine (h : Trails gap comment) :
    tokenize (stringLine s gap comment) = some [ofString "ldc", s.quote] := by
  have hldc : IsToken (ofString "ldc") := by decide
  refine (hldc.blank _ []).trans ((tokensFrom_quote s _ _).trans ?_)
  rw [tokensFrom_blanks h.blanks]
  cases comment with
  | nil => rfl
  | cons b c => exact if_pos (h.sign b rfl)

theorem isLine_stringLine (h : Trails gap comment) : OneLine (stringLine s gap comment) ∧
    Text.chomp (stringLine s gap comment) = stringLine s gap comment := by
  have hgap {b : UInt8} (hb : isSeparator b = false) (hm : b ∈ gap) : False :=
    Bool.false_ne_true (hb.symm.trans (h.blanks b hm))
  constructor
  · have hone : OneLine gap := hgap (by decide)
    simp +decide [stringLine, hone, h.oneLine, Text.oneLine_quote]
  · refine chomp_of_last ?_
    have hquote : s.quote.getLast? = some 34 := getLast?_concat
    unfold stringLine
    rw [getLast?_append, getLast?_append, getLast?_append, hquote]
    cases hc : comment.getLast? with
    | some b => exact fun heq => h.last (hc.trans heq)
    | none =>
      cases hl : gap.getLast? with
      | none => simp
      | some b =>
        rintro ⟨⟩
        exact hgap (by decide) (mem_of_getLast? hl)

theorem assembleLine_string (a : Assembler) (s : Text) :
    assembleLine a (ofString "ldc") [s.quote] = .ok (a.ldcString s) := by
  have hhead : assembleLine a (ofString "ldc") [s.quote] = loadConstant a s.quote := rfl
  have hstart : List.isPrefixOf [byte '"'] s.quote = true := rfl
  rw [hhead, loadConstant, if_pos hstart, Text.unquote?_quote]

end Source

/-! ## Strings in the pool -/

namespace Assembler

variable {a b : Assembler}

/-- What `a` has written and the indices of its strings stay, and the indices of strings lead to
them. -/
structure Keeps (a b : Assembler) : Prop where
  entry : ∀ (t : Text) (n : Nat), b.interned[InternKey.string t]? = some n →
    b.pool.entry n = .ok (.string t)
  interned : ∀ (t : Text) (n : Nat), a.interned[InternKey.string t]? = some n →
    b.interned[InternKey.string t]? = some n
  code : a.code.toList <+: b.code.toList

namespace Keeps

theorem intern (h : Keeps a b) {key : InternKey} {c : Constant}
    (hkey : ∀ t, key = .string t → c = .string t) : Keeps a (b.intern key c).1 := by
  unfold Assembler.intern
  cases hn : b.interned[key]? with
  | some n => exact h
  | none =>
    refine ⟨fun t n ht => ?_, fun t n ht => insert_keeps hn (h.interned t n ht), h.code⟩
    dsimp only at ht ⊢
    rw [Std.HashMap.getElem?_insert] at ht
    split at ht
    · rename_i heq
      obtain rfl := hkey t (beq_iff_eq.1 heq)
      cases ht
      exact entry_push_size b.pool (show _ = some (InternKey.string t) from rfl)
    · exact entry_push c (h.entry t n ht)

theorem find (h : Keeps a b) (a' : Assembler) (c : Call) : Keeps a (b.find (c.wanted a')).1 := by
  have hclass (name : Text) : Keeps a (b.classIndex name).1 := by
    unfold classIndex
    refine Keeps.intern ?_ (by simp)
    split
    · exact h
    · exact ⟨h.entry, h.interned, h.code⟩
  cases c with
  | classOp _ name | multiArray name _ => exact hclass name
  | invoke | field | ldcInt | pushInt | ldcLong | ldcFloat | ldcDouble | ldcString =>
    exact h.intern (by simp)
  | _ => exact h

theorem apply (h : Keeps a b) (c : Call) : Keeps a (c.apply b) := by
  have hsame {b' : Assembler} (hpool : b'.pool = b.pool) (hinterned : b'.interned = b.interned)
      (hcode : b'.code = b.code) : Keeps a b' :=
    ⟨hpool ▸ hinterned ▸ h.entry, hinterned ▸ h.interned, hcode ▸ h.code⟩
  by_cases hc : c.emits = true
  · refine Call.apply_keeps
      { fail := fun _ _ h => ⟨h.entry, h.interned, h.code⟩
        locals := fun _ _ h => ⟨h.entry, h.interned, h.code⟩
        emit := fun b bs h =>
          ⟨h.entry, h.interned, h.code.trans ⟨_, (adds_emit b bs).code.symm⟩⟩
        reference := fun b base isLong l h => ?_ } hc (fun b' hb => hb.find b c) h
    have hcode := h.code.trans ⟨_, (adds_reference b base isLong l).code.symm⟩
    cases isLong <;> exact ⟨h.entry, h.interned, hcode⟩
  · cases c with
    | label name =>
      change Keeps a (b.label name)
      unfold label
      split
      · exact hsame rfl rfl rfl
      · exact hsame rfl rfl rfl
    | guardRange | declareClass | locals | stack => exact hsame rfl rfl rfl
    | _ => exact absurd rfl hc

/-- **Strings stay in the pool at their indices**, whatever calls follow. -/
theorem run (h : Keeps a b) (cs : List Call) : Keeps a (Call.run b cs) := by
  induction cs generalizing b with
  | nil => exact h
  | cons c cs ih => exact ih (h.apply c)

end Keeps

theorem keeps_start (classes : List ClassRef) (owner name desc : Text) (isStatic : Bool) :
    let a := classes.foldl declareClass (start owner name desc isStatic)
    Keeps a a ∧ a.error = none := by
  suffices h : ∀ a : Assembler, Keeps a a → a.error = none →
      Keeps (classes.foldl declareClass a) (classes.foldl declareClass a) ∧
        (classes.foldl declareClass a).error = none by
    exact h _ ⟨by simp [start], fun _ _ => id, prefix_refl _⟩ rfl
  intro a h hnone
  induction classes generalizing a with
  | nil => exact ⟨h, hnone⟩
  | cons c classes ih => exact ih _ ⟨h.entry, h.interned, h.code⟩ hnone

/-- A string whose index fits is loaded from its place in the pool, whatever calls follow. -/
theorem Keeps.ldcString (h : Keeps b a) {s : Text}
    (hindex : (a.intern (.string s) (.string s)).2 ≤ 65535) :
    ∃ x xs i, (∀ rest, Code.decodeOne a.pos x (xs ++ rest) = .ok i) ∧
      (i.op = .ldc ∨ i.op = .ldcW) ∧ ∀ cs, a.code.toList ++ x :: xs <+:
        (Call.run (a.ldcString s) cs).code.toList ∧
          (Call.run (a.ldcString s) cs).pool.entry i.poolIndex = .ok (.string s) := by
  obtain ⟨x, xs, i, hcode, -, ⟨hop, hoperand⟩, hdecode⟩ :=
    Call.kept_of_not_overflows (a := a) (c := .ldcString s) rfl id (by
      rintro (hover | hover)
      · exact absurd hindex (Nat.not_le.2 hover)
      · exact hover)
  refine ⟨x, xs, i, hdecode, hop, fun cs => ?_⟩
  have hafter := h.apply (.ldcString s)
  have hkept : Keeps (a.ldcString s) (Call.run (a.ldcString s) cs) :=
    Keeps.run ⟨hafter.entry, fun _ _ => id, prefix_refl _⟩ cs
  have hkey : (a.ldcString s).interned[InternKey.string s]? =
      some (a.intern (.string s) (.string s)).2 := by
    rw [← (a.adds_intern (.string s) (k := .string s) fun _ => rfl).2]
    unfold Assembler.ldcString ldc
    dsimp only
    split <;> rfl
  refine ⟨hcode ▸ hkept.code, ?_⟩
  rw [Instruction.poolIndex, hoperand]
  exact hkept.entry s _ (hkept.interned s _ hkey)

end Assembler

namespace Source

/-- The lines behind a body that could be assembled are assembled from there on. -/
theorem assembleBody_append {a₀ a : Assembler} {ls : List BodyLine} (h₀ : a₀.error = none)
    (h : assembleBody a₀ ls = .ok a) : a.error = none ∧
      ∀ more, assembleBody a₀ (ls ++ more) = assembleBody a more := by
  fun_induction assembleBody a₀ ls with
  | case1 a₀ =>
    cases h
    exact ⟨h₀, fun _ => rfl⟩
  | case2 | case3 => cases h
  | case4 a₀ l ls a₁ hline hnone ih =>
    obtain ⟨herror, hmore⟩ := ih hnone h
    exact ⟨herror, fun more => (assembleBody_cons hline hnone).trans (hmore more)⟩

/-- **A line of a body loads the text that it quotes.** The line is read as it stands among other
lines, its two tokens go to the body of the method, and if the index of the text fits into two bytes,
they are assembled to a load of the text. This stays so to the end of the body. -/
theorem stringLine_loads {s gap comment : Text} (h : Trails gap comment)
    (hlimit : (stringLine s gap comment).length < Text.lineLimit) {classes : List ClassRef}
    {owner name desc : Text} {isStatic : Bool} {l r : List BodyLine} {a z : Assembler}
    (hbefore : assembleBody (classes.foldl .declareClass (.start owner name desc isStatic)) l =
      .ok a) (hafter : assembleBody (a.ldcString s) r = .ok z)
    (hindex : (a.intern (.string s) (.string s)).2 ≤ 65535) (number : Nat) :
    (∀ pre post : List Text, (∀ l ∈ pre ++ post, OneLine l ∧ l.length < Text.lineLimit) →
      (Text.unlines (pre ++ stringLine s gap comment :: post)).lines.lines =
        pre.map Text.chomp ++ stringLine s gap comment :: post.map Text.chomp) ∧
    tokenize (stringLine s gap comment) = some [ofString "ldc", s.quote] ∧
    (∀ (q : Reading) m, q.current = some m → readLines number q [stringLine s gap comment] =
      .ok { q with current := some { m with body := ⟨number, ofString "ldc", [s.quote]⟩ :: m.body } }) ∧
    assembleBody (classes.foldl .declareClass (.start owner name desc isStatic))
      (l ++ ⟨number, ofString "ldc", [s.quote]⟩ :: r) = .ok z ∧
    ∃ x xs i, a.code.toList ++ x :: xs <+: z.code.toList ∧
      (∀ rest, Code.decodeOne a.pos x (xs ++ rest) = .ok i) ∧ (i.op = .ldc ∨ i.op = .ldcW) ∧
      z.pool.entry i.poolIndex = .ok (.string s) := by
  obtain ⟨hkeeps, hstart⟩ := Assembler.keeps_start classes owner name desc isStatic
  obtain ⟨herror, hmore⟩ := assembleBody_append hstart hbefore
  have hnone : (a.ldcString s).error = none :=
    (Call.error_accepted (c := .ldcString s) rfl id).trans herror
  refine ⟨fun pre post hall => ?_, tokenize_stringLine h, fun q m hm => ?_, ?_, ?_⟩
  · obtain ⟨hone, hchomp⟩ := isLine_stringLine h
    replace hall : ∀ l ∈ pre ++ stringLine s gap comment :: post,
        OneLine l ∧ l.length < Text.lineLimit := by
      obtain ⟨hpre, hpost⟩ := forall_mem_append.1 hall
      exact forall_mem_append.2 ⟨hpre, forall_mem_cons.2 ⟨⟨hone, hlimit⟩, hpost⟩⟩
    have hpieces : Text.pieces (Text.unlines (pre ++ stringLine s gap comment :: post)) =
        pre ++ stringLine s gap comment :: post := by
      rw [Text.pieces, Text.splitLines_unlines fun l hl => (hall l hl).1]
      simp
    rw [Text.lines_eq_pieces (by rw [hpieces]; exact fun l hl => (hall l hl).2), hpieces,
      map_append, map_cons, hchomp]
  · simp +decide [readLines, tokenize_stringLine h, readLine, hm]
  · rw [hmore, assembleBody_cons (assembleLine_string a s) hnone, hafter]
  · obtain ⟨cs, rfl, -⟩ := assembleBody_calls hbefore
    obtain ⟨cs', rfl, -⟩ := assembleBody_calls hafter
    obtain ⟨x, xs, i, hdecode, hop, hend⟩ := (hkeeps.run cs).ldcString hindex
    exact ⟨x, xs, i, (hend cs').1, hdecode, hop, (hend cs').2⟩

/-- A text with a quote, a backslash, a comma, a comment sign and a line feed, in front of a comment
with a quote. -/
theorem markedText_loads :
    tokenize (stringLine "\"\\, #\n" " ," "# \"") = some [ofString "ldc", Text.quote "\"\\, #\n"] ∧
    ∃ x xs i, x :: xs <+: (Assembler.ldcString (.start "T" "f" "()V" true) "\"\\, #\n").code.toList ∧
      (∀ rest, Code.decodeOne 0 x (xs ++ rest) = .ok i) ∧
      (Assembler.ldcString (.start "T" "f" "()V" true) "\"\\, #\n").pool.entry i.poolIndex =
        .ok (.string "\"\\, #\n") := by
  have h : Trails " ," "# \"" := by constructor <;> decide +kernel
  have hbody : assembleBody (foldl Assembler.declareClass (.start "T" "f" "()V" true) []) [] =
      .ok (.start "T" "f" "()V" true) := rfl
  have hindex : (Assembler.intern (.start "T" "f" "()V" true) (.string "\"\\, #\n")
      (.string "\"\\, #\n")).2 ≤ 65535 := by
    simp [Assembler.intern, Assembler.start, ConstantPool.size]
  obtain ⟨-, htokens, -, -, x, xs, i, hcode, hdecode, -, hentry⟩ :=
    stringLine_loads (s := "\"\\, #\n") (r := []) h (by decide +kernel) hbody rfl hindex 1
  exact ⟨htokens, x, xs, i, hcode, hdecode, hentry⟩

end Source

/-! ## A full pool -/

namespace Assembler

/-- An assembler that has loaded as many different numbers. -/
def crowded : Nat → Assembler
  | 0 => start "T" "f" "()V" true
  | n + 1 => (crowded n).ldcInt n

theorem crowded_spec (n : Nat) : (crowded n).pool.size = n + 1 ∧ (crowded n).error = none ∧
    (∀ m, n ≤ m → (crowded n).interned[InternKey.int m]? = none) ∧
      ∀ t, (crowded n).interned[InternKey.string t]? = none := by
  induction n with
  | zero => simp [crowded, start, ConstantPool.size]
  | succ n ih =>
    obtain ⟨hsize, herror, hint, hstring⟩ := ih
    simp only [crowded, ldcInt, intern, hint n (Nat.le_refl n), ldc_eq]
    refine ⟨?_, herror, fun m hm => ?_, fun t => ?_⟩
    · simpa [ConstantPool.size, ConstantPool.push, emit] using hsize
    · have hne : n ≠ m := by omega
      simpa [emit, Std.HashMap.getElem?_insert, hne] using hint m (by omega)
    · simpa [emit, Std.HashMap.getElem?_insert] using hstring t

theorem ldcString_cut {a : Assembler} {t : Text} (hsize : a.pool.size = 65536)
    (hnew : a.interned[InternKey.string t]? = none) : (a.ldcString t).error = a.error ∧
      (a.ldcString t).code.toList = a.code.toList ++ [Opcode.ldcW.byte, 0, 0] := by
  simp only [ldcString, intern, hnew, hsize, ldc_eq]
  exact ⟨rfl, (adds_emit _ _).code⟩

/-- **Behind 65535 other constants the index of a text is cut to zero**, which no constant has, and
no error is recorded. -/
theorem crowded_cut : ((crowded 65535).ldcString "x").error = none ∧
    ((crowded 65535).ldcString "x").code.toList =
      (crowded 65535).code.toList ++ [Opcode.ldcW.byte, 0, 0] ∧
    ∀ c, ((crowded 65535).ldcString "x").pool.entry 0 ≠ .ok c := by
  obtain ⟨hsize, herror, -, hstring⟩ := crowded_spec 65535
  obtain ⟨hnone, hcode⟩ := ldcString_cut hsize (hstring "x")
  exact ⟨hnone.trans herror, hcode, nofun⟩

end Assembler

end Bytelift
