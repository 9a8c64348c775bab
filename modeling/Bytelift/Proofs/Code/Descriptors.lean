import Bytelift.Code.Descriptor
import Mathlib.Data.List.Basic
import Mathlib.Data.List.TakeWhile

/-!
# The grammar of descriptors

The descriptors of fields and of methods are given by rules here (`Scalar`, `Describes`, `Signature`), and the parsers are shown to
accept exactly the texts that the rules allow. A class name may hold any byte other than a semicolon, brackets and parentheses
included, so where the parameters of a method end is not a matter of looking for the parenthesis. That a method descriptor has one
decomposition only follows from the parser, which is a function and finds each decomposition that there is.

Both directions are about a descriptor at the front of a text (`parseFront_append`, `of_parseFront`), since the parameters of a method
are read one behind the other.

Result: `MethodType.parse_grammar`.
-/

namespace Bytelift

open List FieldType

namespace Text

variable {b : UInt8} {t x y : Text}

theorem byte_ofNat (b : UInt8) : byte (Char.ofNat b.toNat) = b := by
  have hb : b.toNat < 256 := b.toNat_lt
  have hvalid : b.toNat.isValidChar := Or.inl (by omega)
  rw [byte, Char.ofNat, dif_pos hvalid]
  exact UInt8.ofNat_toNat

theorem cutAt_append (h : b ∉ x) : cutAt b (x ++ b :: y) = some (x, y) := by
  have hx : ∀ a ∈ x, (a != b) = true := by
    intro a ha
    simpa using fun heq : a = b => h (heq ▸ ha)
  simp [cutAt, dropWhile_append_of_pos hx, takeWhile_append_of_pos hx]

theorem of_cutAt (h : cutAt b t = some (x, y)) : t = x ++ b :: y ∧ b ∉ x := by
  unfold cutAt at h
  split at h
  case h_1 => cases h
  case h_2 c after hdrop =>
    have hc : c = b := by simpa [hdrop] using head?_dropWhile_not (· != b) t
    subst hc
    cases h
    refine ⟨?_, fun hmem => by simpa using mem_takeWhile_imp hmem⟩
    rw [← hdrop, takeWhile_append_dropWhile]

end Text

open Text (byte)

namespace FieldType

variable {whole s t rest : Text} {k : Kind} {ft : FieldType}

/-- The letters of the primitive types and of void. -/
def letters : List (UInt8 × Kind) :=
  [(byte 'V', .void), (byte 'Z', .boolean), (byte 'B', .byte), (byte 'C', .char), (byte 'S', .short), (byte 'I', .int),
    (byte 'J', .long), (byte 'F', .float), (byte 'D', .double)]

/-- The descriptors that do not start with a bracket. -/
inductive Scalar : Text → Kind → Prop
  | letter {b : UInt8} {k : Kind} : (b, k) ∈ letters → Scalar [b] k
  | ofClass {name : Text} : name ≠ [] → byte ';' ∉ name → Scalar (byte 'L' :: (name ++ [byte ';'])) .reference

/-- The descriptors of the types of each kind. -/
inductive Describes : Text → Kind → Prop
  | scalar {s : Text} {k : Kind} : Scalar s k → Describes s k
  | array {s : Text} {k : Kind} (n : Nat) : Scalar s k → k ≠ .void →
      Describes (List.replicate (n + 1) (byte '[') ++ s) .reference

/-! ## One descriptor at the front of a text -/

theorem primitive?_eq_some {b : UInt8} {k : Kind} : primitive? b = some k ↔ (b, k) ∈ letters := by
  constructor
  · intro h
    unfold primitive? at h
    split at h
    case h_10 => cases h
    all_goals
      rename_i hchar
      cases h
      rw [← Text.byte_ofNat b, hchar]
      decide
  · intro h
    simp only [letters, mem_cons, Prod.mk.injEq, not_mem_nil, or_false] at h
    rcases h with ⟨rfl, rfl⟩ | ⟨rfl, rfl⟩ | ⟨rfl, rfl⟩ | ⟨rfl, rfl⟩ | ⟨rfl, rfl⟩ | ⟨rfl, rfl⟩ | ⟨rfl, rfl⟩ | ⟨rfl, rfl⟩ | ⟨rfl, rfl⟩ <;> rfl

theorem parseScalar_append (h : Scalar s k) (whole rest : Text) : parseScalar whole (s ++ rest) = .ok ⟨k, s⟩ := by
  cases h with
  | letter hb => simp [parseScalar, primitive?_eq_some.2 hb]
  | @ofClass name hne hname =>
    have hL : primitive? (byte 'L') = none := by decide
    have hcut : Text.cutAt (byte ';') (name ++ byte ';' :: rest) = some (name, rest) := Text.cutAt_append hname
    obtain ⟨c, name, rfl⟩ := exists_cons_of_ne_nil hne
    simp only [cons_append, append_assoc, nil_append] at hcut ⊢
    simp [parseScalar, hL, hcut]

theorem of_parseScalar (h : parseScalar whole t = .ok ft) : Scalar ft.desc ft.kind ∧ ∃ rest, t = ft.desc ++ rest := by
  unfold parseScalar at h
  split at h
  case h_1 => cases h
  case h_2 b t =>
    split at h
    case h_1 k hk =>
      cases h
      exact ⟨.letter (primitive?_eq_some.1 hk), t, rfl⟩
    case h_2 =>
      split at h
      case isFalse => cases h
      case isTrue hb =>
        split at h
        case h_2 => cases h
        case h_1 c name rest hcut =>
          obtain ⟨rfl, hname⟩ := Text.of_cutAt hcut
          subst hb
          cases h
          exact ⟨.ofClass (cons_ne_nil c name) hname, rest, by simp⟩

theorem Scalar.head (h : Scalar s k) (rest : Text) : (s ++ rest).takeWhile (· == byte '[') = [] := by
  cases h with
  | letter hb =>
    have hne : ∀ p ∈ letters, (p.1 == byte '[') = false := by decide
    simp [hne _ hb]
  | ofClass _ _ => rfl

theorem parseFront_append (h : Describes s k) (whole rest : Text) : parseFront whole (s ++ rest) = .ok ⟨k, s⟩ := by
  cases h with
  | scalar hs => simp only [parseFront, hs.head rest, parseScalar_append hs]
  | @array s k n hs hk =>
    have hbrackets : ∀ a ∈ List.replicate (n + 1) (byte '['), (a == byte '[') = true := by
      intro a ha
      simp [eq_of_mem_replicate ha]
    have htake : (List.replicate (n + 1) (byte '[') ++ s ++ rest).takeWhile (· == byte '[') = List.replicate (n + 1) (byte '[') := by
      rw [append_assoc, takeWhile_append_of_pos hbrackets, hs.head rest, append_nil]
    have hdrop : (List.replicate (n + 1) (byte '[') ++ s ++ rest).dropWhile (· == byte '[') = s ++ rest := by
      have hsplit := takeWhile_append_dropWhile (p := (· == byte '[')) (l := s ++ rest)
      rw [hs.head rest, nil_append] at hsplit
      rw [append_assoc, dropWhile_append_of_pos hbrackets, hsplit]
    unfold parseFront
    rw [htake, hdrop, parseScalar_append hs]
    simp [replicate_succ, hk]

theorem of_parseFront (h : parseFront whole t = .ok ft) : Describes ft.desc ft.kind ∧ ∃ rest, t = ft.desc ++ rest := by
  unfold parseFront at h
  split at h
  case h_1 =>
    obtain ⟨hs, hrest⟩ := of_parseScalar h
    exact ⟨.scalar hs, hrest⟩
  case h_2 hne =>
    split at h
    case h_1 => cases h
    case h_2 elem helem =>
      split at h
      case isTrue => cases h
      case isFalse hk =>
        obtain ⟨hs, rest, hrest⟩ := of_parseScalar helem
        cases h
        have hall : ∀ a ∈ t.takeWhile (· == byte '['), a = byte '[' := fun a ha => by simpa using mem_takeWhile_imp ha
        have hrep := eq_replicate_of_mem hall
        obtain ⟨n, hn⟩ := Nat.exists_eq_succ_of_ne_zero (fun h0 => hne (length_eq_zero_iff.1 h0))
        rw [hn] at hrep
        refine ⟨hrep ▸ .array n hs hk, rest, ?_⟩
        rw [append_assoc, ← hrest, takeWhile_append_dropWhile]

/-- A field descriptor is accepted exactly if the rules allow it, and the parsed type keeps it. -/
theorem parse_iff : parse s = .ok ft ↔ Describes s ft.kind ∧ ft.desc = s := by
  constructor
  · intro h
    unfold parse at h
    split at h
    case h_1 => cases h
    case h_2 ft' hft =>
      split at h
      case isFalse => cases h
      case isTrue hlen =>
        cases h
        obtain ⟨hd, rest, hrest⟩ := of_parseFront hft
        have : rest = [] := by
          have := congrArg List.length hrest
          rw [length_append] at this
          exact length_eq_zero_iff.1 (by omega)
        rw [this, append_nil] at hrest
        exact ⟨hrest ▸ hd, hrest.symm⟩
  · rintro ⟨hd, rfl⟩
    have h := parseFront_append hd ft.desc []
    rw [append_nil] at h
    simp [parse, h]

theorem Describes.element (h : Describes (byte '[' :: s) k) : ∃ k', Describes s k' := by
  generalize htext : byte '[' :: s = text at h
  cases h with
  | scalar hs =>
    have hhead := hs.head []
    simp [← htext] at hhead
  | array n hs hk =>
    obtain ⟨-, rfl⟩ := List.cons.inj htext
    cases n with
    | zero => exact ⟨_, .scalar hs⟩
    | succ n => exact ⟨_, .array n hs hk⟩

theorem element_of_parse (h : parse (byte '[' :: s) = .ok ft) : ∃ e, ft.element = some (.ok e) ∧ e.desc = s := by
  obtain ⟨hd, hdesc⟩ := parse_iff.1 h
  obtain ⟨k, hk⟩ := hd.element
  refine ⟨⟨k, s⟩, ?_, rfl⟩
  have helem : ft.element = some (parse s) := by
    unfold element
    rw [hdesc]
    rfl
  have hparse : parse s = .ok ⟨k, s⟩ := parse_iff.2 ⟨hk, rfl⟩
  rw [helem, hparse]

theorem Describes.ne_nil (h : Describes s k) : s ≠ [] := by
  cases h with
  | scalar hs => cases hs <;> exact cons_ne_nil _ _
  | array n hs hk => exact cons_ne_nil _ _

theorem Describes.head_ne (h : Describes (b :: s) k) : b ≠ byte ')' := by
  rintro rfl
  have hfront := parseFront_append h [] []
  simp [parseFront, parseScalar, primitive?, byte] at hfront

/-- The kinds that take two local variables are described by the letters of long and double. -/
theorem Describes.isWide_iff (h : Describes s k) : k.isWide = true ↔ s = [byte 'J'] ∨ s = [byte 'D'] := by
  cases h with
  | scalar hs =>
    cases hs with
    | @letter b k hb =>
      have hall : ∀ p ∈ letters, p.2.isWide = true ↔ [p.1] = [byte 'J'] ∨ [p.1] = [byte 'D'] := by decide
      exact hall (b, k) hb
    | ofClass _ _ => simp [Kind.isWide, byte]
  | array n _ _ => simp [Kind.isWide, replicate_succ, byte]

end FieldType

namespace MethodType

variable {whole s t tail : Text} {ps : List FieldType} {k : Kind} {m : MethodType}

/-- A method descriptor with the descriptors of its parameters and of its result. -/
structure Signature (s : Text) (params : List Text) (result : Text) : Prop where
  text : s = byte '(' :: (params.flatten ++ byte ')' :: result)
  params : ∀ p ∈ params, ∃ k, FieldType.Describes p k ∧ k ≠ .void
  result : ∃ k, FieldType.Describes result k

/-! ## The parameters -/

theorem parseParams_skip (whole u t : Text) (acc : List FieldType) :
    parseParams whole u.length (u ++ t) acc = parseParams whole 0 t acc := by
  induction u with
  | nil => rfl
  | cons b u ih => simpa [parseParams] using ih

theorem parseParams_cons (h : Describes s k) (hk : k ≠ .void) (whole t : Text) (acc : List FieldType) :
    parseParams whole 0 (s ++ t) acc = parseParams whole 0 t (⟨k, s⟩ :: acc) := by
  have hfront := parseFront_append h whole t
  obtain ⟨b, s, rfl⟩ := exists_cons_of_ne_nil h.ne_nil
  rw [cons_append] at hfront ⊢
  rw [parseParams, if_neg h.head_ne, hfront]
  simpa [hk] using parseParams_skip whole s t (⟨k, b :: s⟩ :: acc)

theorem parseParams_flatten (hps : ∀ p ∈ ps, Describes p.desc p.kind ∧ p.kind ≠ .void) (whole tail : Text)
    (acc : List FieldType) :
    parseParams whole 0 ((ps.map (·.desc)).flatten ++ byte ')' :: tail) acc = .ok (acc.reverse ++ ps, tail) := by
  induction ps generalizing acc with
  | nil => simp [parseParams]
  | cons p ps ih =>
    obtain ⟨hp, hk⟩ := hps p mem_cons_self
    rw [map_cons, flatten_cons, append_assoc, parseParams_cons hp hk,
      ih fun q hq => hps q (mem_cons_of_mem p hq)]
    simp

theorem of_parseParams {skip : Nat} {acc qs : List FieldType} (h : parseParams whole skip t acc = .ok (qs, tail)) :
    ∃ ps, qs = acc.reverse ++ ps ∧ t.drop skip = (ps.map (·.desc)).flatten ++ byte ')' :: tail ∧
      ∀ p ∈ ps, Describes p.desc p.kind ∧ p.kind ≠ .void := by
  fun_induction parseParams whole skip t acc with
  | case1 => cases h
  | case2 acc skip b t ih => exact ih h
  | case3 acc t =>
    cases h
    exact ⟨[], by simp⟩
  | case4 => cases h
  | case5 => cases h
  | case6 acc b t hb ft hft hk ih =>
    obtain ⟨hd, rest, hrest⟩ := of_parseFront hft
    obtain ⟨ps, rfl, hdrop, hps⟩ := ih h
    refine ⟨ft :: ps, by simp, ?_, by simpa using ⟨⟨hd, hk⟩, hps⟩⟩
    obtain ⟨c, d, hdesc⟩ := exists_cons_of_ne_nil hd.ne_nil
    rw [hdesc, cons_append] at hrest
    obtain ⟨rfl, rfl⟩ := List.cons.inj hrest
    rw [hdesc, length_cons, Nat.add_sub_cancel, drop_left] at hdrop
    simp [hdesc, hdrop]

theorem of_parse (h : parse s = .ok m) : Signature s (m.params.map (·.desc)) m.result.desc ∧
    (∀ p ∈ m.params, Describes p.desc p.kind) ∧ Describes m.result.desc m.result.kind := by
  unfold parse at h
  split at h
  case h_2 => cases h
  case h_1 rest =>
    cases hparams : parseParams (40 :: rest) 0 rest [] with
    | error e => simp [hparams, bind, Except.bind] at h
    | ok r =>
      obtain ⟨params, tail⟩ := r
      cases hresult : FieldType.parse tail with
      | error e => simp [hparams, hresult, bind, Except.bind] at h
      | ok result =>
        simp only [hparams, hresult, bind, Except.bind, pure, Except.pure, Except.ok.injEq] at h
        subst h
        obtain ⟨ps, rfl, hrest, hps⟩ := of_parseParams hparams
        obtain ⟨hd, rfl⟩ := parse_iff.1 hresult
        refine ⟨⟨by simpa [byte] using hrest, ?_, _, hd⟩, fun p hp => (hps p hp).1, hd⟩
        intro d hmem
        obtain ⟨p, hp, rfl⟩ := mem_map.1 hmem
        exact ⟨p.kind, hps p hp⟩

theorem Signature.parse {params : List Text} {result : Text} (h : Signature s params result) :
    ∃ m, MethodType.parse s = .ok m ∧ params = m.params.map (·.desc) ∧ result = m.result.desc := by
  obtain ⟨k, hk⟩ := h.result
  obtain ⟨ps, hps, rfl⟩ : ∃ ps : List FieldType, (∀ p ∈ ps, Describes p.desc p.kind ∧ p.kind ≠ .void) ∧
      ps.map (·.desc) = params := by
    have htypes := h.params
    clear h
    induction params with
    | nil => exact ⟨[], by simp, rfl⟩
    | cons p params ih =>
      obtain ⟨k, hp⟩ := htypes p mem_cons_self
      obtain ⟨ps, hps, rfl⟩ := ih fun q hq => htypes q (mem_cons_of_mem p hq)
      exact ⟨⟨k, p⟩ :: ps, by simpa using ⟨hp, hps⟩, rfl⟩
  refine ⟨⟨ps, k, result⟩, ?_, rfl, rfl⟩
  have hparams := parseParams_flatten hps s result []
  have hresult : FieldType.parse result = .ok ⟨k, result⟩ := parse_iff.2 ⟨hk, rfl⟩
  have hs : s = 40 :: ((ps.map (·.desc)).flatten ++ byte ')' :: result) := h.text
  rw [hs] at hparams ⊢
  simp [MethodType.parse, hparams, hresult, bind, Except.bind, pure, Except.pure]

/-- Each parameter takes one local variable, and a long or a double one more. -/
theorem argSlots_eq (h : ∀ p ∈ m.params, Describes p.desc p.kind) :
    m.argSlots = m.params.length + m.params.countP fun p => p.desc = [byte 'J'] ∨ p.desc = [byte 'D'] := by
  unfold argSlots
  generalize m.params = params at h
  induction params with
  | nil => rfl
  | cons p params ih =>
    have hp := (h p mem_cons_self).isWide_iff
    rw [foldr_cons, ih fun q hq => h q (mem_cons_of_mem p hq), length_cons, countP_cons]
    by_cases hwide : p.kind.isWide = true
    · simp only [hwide, hp.1 hwide, decide_true, if_true]
      omega
    · simp only [hwide, mt hp.2 hwide, decide_false, Bool.false_eq_true, if_false]
      omega

/-- The parsers accept exactly the descriptors that the rules allow, and what they return says how the text was read. -/
theorem parse_grammar (s : Text) :
    ((∃ t, FieldType.parse s = .ok t) ↔ ∃ k, FieldType.Describes s k) ∧
    (∀ t, FieldType.parse s = .ok t → t.desc = s ∧ (∀ k, FieldType.Describes s k ↔ k = t.kind) ∧
      ∀ elem, s = byte '[' :: elem → ∃ e, t.element = some (.ok e) ∧ byte '[' :: e.desc = s) ∧
    ((∃ m, parse s = .ok m) ↔ ∃ params result, Signature s params result) ∧
    ∀ m, parse s = .ok m →
      (∀ params result, Signature s params result ↔ params = m.params.map (·.desc) ∧ result = m.result.desc) ∧
      (∀ p ∈ m.params, FieldType.Describes p.desc p.kind) ∧ FieldType.Describes m.result.desc m.result.kind ∧
      m.argSlots = m.params.length + m.params.countP fun p => p.desc = [byte 'J'] ∨ p.desc = [byte 'D'] := by
  refine ⟨⟨?_, ?_⟩, ?_, ⟨?_, ?_⟩, ?_⟩
  · rintro ⟨t, ht⟩
    exact ⟨t.kind, (FieldType.parse_iff.1 ht).1⟩
  · rintro ⟨k, hk⟩
    exact ⟨⟨k, s⟩, FieldType.parse_iff.2 ⟨hk, rfl⟩⟩
  · intro t ht
    obtain ⟨hd, hdesc⟩ := FieldType.parse_iff.1 ht
    refine ⟨hdesc, fun k => ⟨fun hk => ?_, fun hk => hk ▸ hd⟩, ?_⟩
    · have hother : FieldType.parse s = .ok ⟨k, s⟩ := FieldType.parse_iff.2 ⟨hk, rfl⟩
      exact congrArg FieldType.kind (Except.ok.inj (hother.symm.trans ht))
    · rintro elem rfl
      obtain ⟨e, he, rfl⟩ := FieldType.element_of_parse ht
      exact ⟨e, he, rfl⟩
  · rintro ⟨m, hm⟩
    exact ⟨_, _, (of_parse hm).1⟩
  · rintro ⟨params, result, h⟩
    obtain ⟨m, hm, -⟩ := h.parse
    exact ⟨m, hm⟩
  · intro m hm
    obtain ⟨hsig, hparams, hresult⟩ := of_parse hm
    refine ⟨fun params result => ⟨fun h => ?_, ?_⟩, hparams, hresult, argSlots_eq hparams⟩
    · obtain ⟨m', hm', hps, hr⟩ := h.parse
      obtain rfl := Except.ok.inj (hm'.symm.trans hm)
      exact ⟨hps, hr⟩
    · rintro ⟨rfl, rfl⟩
      exact hsig

/-- A class name may hold the parenthesis that closes the parameters. -/
theorem parse_grammar_parenthesis :
    parse "(La)b;[[JD)V" = .ok ⟨[⟨.reference, "La)b;"⟩, ⟨.reference, "[[J"⟩, ⟨.double, "D"⟩], .void⟩ ∧
      ∀ params result, Signature "(La)b;[[JD)V" params result ↔
        params = ([("La)b;" : Text), ("[[J" : Text), ("D" : Text)] : List Text) ∧ result = "V" := by
  have hparse : parse "(La)b;[[JD)V" = .ok ⟨[⟨.reference, "La)b;"⟩, ⟨.reference, "[[J"⟩, ⟨.double, "D"⟩], .void⟩ := by decide
  obtain ⟨-, -, -, h⟩ := parse_grammar "(La)b;[[JD)V"
  exact ⟨hparse, (h _ hparse).1⟩

end MethodType
end Bytelift
