import Bytelift.Cache.Key
import Bytelift.Proofs.Lift.Twins
import Bytelift.Proofs.Number.FloatText
import Bytelift.Proofs.Settings.Fingerprint
import Bytelift.Proofs.Text.Quoting

/-!
# What a key is the digest of

The parts of a method are hashed one after the other, with nothing between them and without their kinds, and some parts
are not hashed at all. So a key does not determine a lifting: the constants `5` of two kinds have one text. It does if the
parts have the same lengths and what is not hashed is the same. The parts can then be read off, and the methods are equal up
to the depth of the stack that they declare, which a lifting does not read.

Results:
* `material_eq_iff`: **the key determines the lifting of methods whose parts have the same lengths.**
-/

namespace Bytelift

open List Text Lift

/-! ## Parts of a text -/

namespace Text

variable {α : Type} {R : α → α → Prop} {f : α → Text} {l l' : List α}

theorem length_flatMap_eq (hlen : ∀ x y, R x y → (f x).length = (f y).length) (h : Forall₂ R l l') :
    (l.flatMap f).length = (l'.flatMap f).length := by
  induction h with
  | nil => rfl
  | cons hxy _ ih => rw [flatMap_cons, flatMap_cons, length_append, length_append, hlen _ _ hxy, ih]

/-- Parts of the same lengths are read off the text that they make up. -/
theorem forall₂_of_flatMap_eq (hlen : ∀ x y, R x y → (f x).length = (f y).length) (h : Forall₂ R l l')
    (heq : l.flatMap f = l'.flatMap f) : Forall₂ (fun x y => R x y ∧ f x = f y) l l' := by
  induction h with
  | nil => exact .nil
  | cons hxy _ ih =>
    rw [flatMap_cons, flatMap_cons] at heq
    obtain ⟨hhead, htail⟩ := append_inj heq (hlen _ _ hxy)
    exact .cons ⟨hxy, hhead⟩ (ih htail)

/-- If equal parts of the same lengths are equal items, then the items are read off the text. -/
theorem eq_of_flatMap_eq (hlen : ∀ x y, R x y → (f x).length = (f y).length) (heq : ∀ x y, R x y → f x = f y → x = y)
    (h : Forall₂ R l l') (hf : l.flatMap f = l'.flatMap f) : l = l' :=
  forall₂_eq_eq_eq ▸ (forall₂_of_flatMap_eq hlen h hf).imp fun _ _ hxy => heq _ _ hxy.1 hxy.2

end Text

/-! ## Constants -/

/-- Two fields whose names have the same lengths. -/
structure FieldInfo.Alike (f f' : FieldInfo) : Prop where
  owner : f.owner.length = f'.owner.length
  name : f.name.length = f'.name.length
  desc : f.desc.length = f'.desc.length

/-- Two constants of one kind whose parts have the same lengths and that agree on what is not written: the supertypes of a class, the
descriptor of a field, what kind of type declares a method, and which of the values that are no numbers a number is. -/
def Constant.Alike : Constant → Constant → Prop
  | .invalid, .invalid => True
  | .int v, .int w | .long v, .long w => (Text.ofInt v.toInt).length = (Text.ofInt w.toInt).length
  | .float x, .float y | .double x, .double y =>
    (Number.floatText x).length = (Number.floatText y).length ∧ (x.isNaN = true → y.isNaN = true → x = y)
  | .string t, .string u => t.quote.length = u.quote.length
  | .cls c, .cls d => c.name.length = d.name.length ∧ c.super = d.super ∧ c.interfaces = d.interfaces ∧
    List.Forall₂ FieldInfo.Alike c.fields d.fields
  | .method m, .method n => m.owner.length = n.owner.length ∧ m.name.length = n.name.length ∧ m.desc.length = n.desc.length ∧
    m.isInterface = n.isInterface
  | .field f, .field g => f.owner.length = g.owner.length ∧ f.name.length = g.name.length ∧ f.desc = g.desc
  | _, _ => False

theorem fieldKey_inj {o o' n n' : Text} (ho : o.length = o'.length) (h : fieldKey o n = fieldKey o' n') : o = o' ∧ n = n' := by
  obtain ⟨h, hn⟩ := append_inj h (by simp [ho])
  exact ⟨append_cancel_right h, hn⟩

theorem methodKey_inj {o o' n n' d d' : Text} (ho : o.length = o'.length) (hn : n.length = n'.length)
    (h : methodKey o n d = methodKey o' n' d') : o = o' ∧ n = n' ∧ d = d' := by
  obtain ⟨h, hd⟩ := append_inj h (by simp [ho, hn])
  obtain ⟨rfl, rfl⟩ := fieldKey_inj ho (append_cancel_right h)
  exact ⟨rfl, rfl, hd⟩

namespace CacheKey

theorem length_fieldBytes {f f' : FieldInfo} (h : f.Alike f') : (fieldBytes f).length = (fieldBytes f').length := by
  simp [fieldBytes, FieldInfo.key, fieldKey, h.owner, h.name, h.desc]

theorem fieldBytes_inj {f f' : FieldInfo} (h : f.Alike f') (heq : fieldBytes f = fieldBytes f') : f = f' := by
  obtain ⟨o, n, d⟩ := f
  obtain ⟨o', n', d'⟩ := f'
  obtain ⟨rfl, rfl, rfl⟩ := methodKey_inj h.owner h.name heq
  rfl

theorem length_constantBytes {c d : Constant} (h : c.Alike d) : (constantBytes c).length = (constantBytes d).length := by
  cases c <;> cases d <;> simp only [Constant.Alike] at h <;> simp only [constantBytes, Constant.render]
  case int.int => exact h
  case long.long => exact h
  case float.float => exact h.1
  case double.double => exact h.1
  case string.string => exact h
  case cls.cls =>
    rw [length_append, length_append, h.1, length_flatMap_eq (fun _ _ hf => length_fieldBytes hf) h.2.2.2]
  case method.method =>
    obtain ⟨ho, hn, hd, -⟩ := h
    simp only [MethodRef.key, methodKey, length_append, ho, hn, hd]
  case field.field =>
    obtain ⟨ho, hn, -⟩ := h
    simp only [FieldRef.key, fieldKey, length_append, ho, hn]

theorem constantBytes_inj {c d : Constant} (h : c.Alike d) (heq : constantBytes c = constantBytes d) : c = d := by
  cases c <;> cases d <;> simp only [Constant.Alike] at h <;> simp only [constantBytes, Constant.render] at heq
  case invalid.invalid => rfl
  case int.int => rw [Int64.toInt_inj.1 (ofInt_injective heq)]
  case long.long => rw [Int64.toInt_inj.1 (ofInt_injective heq)]
  case float.float =>
    rcases Number.floatText_injective heq with rfl | ⟨hx, hy⟩
    · rfl
    · rw [h.2 hx hy]
  case double.double =>
    rcases Number.floatText_injective heq with rfl | ⟨hx, hy⟩
    · rfl
    · rw [h.2 hx hy]
  case string.string => rw [quote_injective heq]
  case cls.cls c d =>
    obtain ⟨hname, hsuper, hinterfaces, hfields⟩ := h
    obtain ⟨hn, hf⟩ := append_inj heq hname
    have hf := eq_of_flatMap_eq (fun _ _ hf => length_fieldBytes hf) (fun _ _ hf => fieldBytes_inj hf) hfields hf
    cases c
    cases d
    simp_all
  case method.method m n =>
    obtain ⟨ho, hn, -, hi⟩ := h
    obtain ⟨ho, hn, hd⟩ := methodKey_inj ho hn heq
    cases m
    cases n
    simp_all
  case field.field f g =>
    obtain ⟨ho, hn, hd⟩ := h
    obtain ⟨ho, hn⟩ := fieldKey_inj ho heq
    cases f
    cases g
    simp_all

/-! ## Rows -/

/-- A number is a machine integer. -/
def IsWord (i : Int) : Prop := -9223372036854775808 ≤ i ∧ i ≤ 9223372036854775807

theorem length_word (i : Int) : (word i).length = 8 := by simp [word]

theorem mod_pow_eq {n m : Nat} (k : Nat) (h : ∀ i < k, n / 256 ^ i % 256 = m / 256 ^ i % 256) : n % 256 ^ k = m % 256 ^ k := by
  induction k with
  | zero => rw [pow_zero, Nat.mod_one, Nat.mod_one]
  | succ k ih => rw [Nat.mod_pow_succ, Nat.mod_pow_succ, ih fun i hi => h i (by omega), h k (by omega)]

theorem word_inj {i j : Int} (hi : IsWord i) (hj : IsWord j) (h : word i = word j) : i = j := by
  unfold word at h
  rw [map_inj_left] at h
  have hmod := mod_pow_eq (n := (i % (Nat.pow 2 64 : Nat)).toNat) (m := (j % (Nat.pow 2 64 : Nat)).toNat) 8 fun k hk => by
    have hk := congrArg UInt8.toNat (h k (by simpa using hk))
    simpa using hk
  unfold IsWord at hi hj
  norm_num at hmod
  omega

end CacheKey

/-- Two rows that are written in texts of the same length, with the positions of machine integers. -/
structure ExceptionEntry.Alike (e e' : ExceptionEntry) : Prop where
  length : (CacheKey.entryBytes e).length = (CacheKey.entryBytes e').length
  start : CacheKey.IsWord e.start ∧ CacheKey.IsWord e'.start
  stop : CacheKey.IsWord e.stop ∧ CacheKey.IsWord e'.stop
  handler : CacheKey.IsWord e.handler ∧ CacheKey.IsWord e'.handler

namespace CacheKey

theorem kind_inj {k k' : Bool} {t t' : Text}
    (h : (if k then "finally:" else "catch:" : Text) ++ t = (if k' then "finally:" else "catch:" : Text) ++ t') : k = k' := by
  have hhead := congrArg List.head? h
  cases k <;> cases k'
  · rfl
  · exact absurd (Option.some.inj (show some 99 = some (102 : UInt8) from hhead)) (by decide)
  · exact absurd (Option.some.inj (show some 102 = some (99 : UInt8) from hhead)) (by decide)
  · rfl

theorem entryBytes_inj {e e' : ExceptionEntry} (h : e.Alike e') (heq : entryBytes e = entryBytes e') : e = e' := by
  unfold entryBytes at heq
  simp only [append_assoc] at heq
  obtain ⟨hstart, heq⟩ := append_inj heq (by rw [length_word, length_word])
  obtain ⟨hstop, heq⟩ := append_inj heq (by rw [length_word, length_word])
  obtain ⟨hhandler, heq⟩ := append_inj heq (by rw [length_word, length_word])
  have hstart := word_inj h.start.1 h.start.2 hstart
  have hstop := word_inj h.stop.1 h.stop.2 hstop
  have hhandler := word_inj h.handler.1 h.handler.2 hhandler
  have hkind : e.isCleanup = e'.isCleanup := kind_inj heq
  rw [hkind] at heq
  have htype := append_cancel_left heq
  cases e
  cases e'
  simp_all

end CacheKey

/-! ## Methods -/

/-- Two methods whose parts are written in texts of the same lengths, and that agree on what is not written. -/
structure Method.Alike (m m' : Method) : Prop where
  owner : m.owner.length = m'.owner.length
  name : m.name.length = m'.name.length
  desc : m.desc.length = m'.desc.length
  code : m.code.length = m'.code.length
  isStatic : m.isStatic = m'.isStatic
  maxLocals : m.maxLocals = m'.maxLocals
  exceptions : List.Forall₂ ExceptionEntry.Alike m.exceptions m'.exceptions
  pool : List.Forall₂ Constant.Alike m.pool.entries.toList m'.pool.entries.toList

namespace CacheKey

variable {m m' : Method} {s s' : Settings}

/-- The parts of what a key is the digest of are read off it. -/
theorem material_inj (h : m.Alike m') (heq : material m s = material m' s') :
    m' = { m with maxStack := m'.maxStack } ∧ s.fingerprint = s'.fingerprint := by
  unfold material at heq
  simp only [flatten_cons, flatten_nil, append_nil] at heq
  obtain ⟨hkey, heq⟩ := append_inj heq
    (by simp only [Method.key, methodKey, length_append, h.owner, h.name, h.desc])
  obtain ⟨hcode, heq⟩ := append_inj heq h.code
  obtain ⟨hrows, heq⟩ := append_inj heq (length_flatMap_eq (fun _ _ he => he.length) h.exceptions)
  obtain ⟨-, heq⟩ := append_inj heq (by rw [h.isStatic])
  obtain ⟨hpool, hsettings⟩ := append_inj heq (length_flatMap_eq (fun _ _ hc => length_constantBytes hc) h.pool)
  obtain ⟨ho, hn, hd⟩ := methodKey_inj h.owner h.name hkey
  have hrows := eq_of_flatMap_eq (fun _ _ he => he.length) (fun _ _ he => entryBytes_inj he) h.exceptions hrows
  have hpool := eq_of_flatMap_eq (fun _ _ hc => length_constantBytes hc) (fun _ _ hc => constantBytes_inj hc) h.pool hpool
  have hl := h.maxLocals
  have hs := h.isStatic
  refine ⟨?_, hsettings⟩
  obtain ⟨o, n, d, st, l, k, c, r, p⟩ := m
  obtain ⟨o', n', d', st', l', k', c', r', p'⟩ := m'
  obtain ⟨p⟩ := p
  obtain ⟨p'⟩ := p'
  obtain rfl := Array.toList_inj.1 hpool
  simp_all

end CacheKey

/-! ## Settings -/

namespace Text

theorem le_iff {t u : Text} : t.le u = true ↔ t ≤ u := by
  unfold le
  rw [Bool.not_eq_true', decide_eq_false_iff_not, List.not_lt]

theorem mergeSort_eq {ts us : List Text} (h : ts.Perm us) : ts.mergeSort le = us.mergeSort le := by
  have htrans (t u w : Text) (h : t.le u = true) (h' : u.le w = true) : t.le w = true :=
    le_iff.2 (List.le_trans (le_iff.1 h) (le_iff.1 h'))
  have htotal (t u : Text) : (t.le u || u.le t) = true := by
    rw [Bool.or_eq_true, le_iff, le_iff]
    exact List.le_total t u
  have hsorted (ts : List Text) := pairwise_mergeSort htrans htotal ts
  refine List.Perm.eq_of_pairwise (fun t u _ _ h h' => ?_) (hsorted ts) (hsorted us)
    ((mergeSort_perm ts le).trans (h.trans (mergeSort_perm us le).symm))
  exact List.le_antisymm (le_iff.1 h) (le_iff.1 h')

end Text

/-- Two settings agree on all that a key depends on. -/
structure Settings.Agree (s s' : Settings) : Prop where
  dumpIr : s.dumpIr = s'.dumpIr
  elideGuards : s.elideGuards = s'.elideGuards
  nesting : s.nesting = s'.nesting
  allowed : s.allowed.Perm s'.allowed

namespace Settings.Agree

variable {s s' : Settings}

theorem symm (h : s.Agree s') : s'.Agree s := ⟨h.dumpIr.symm, h.elideGuards.symm, h.nesting.symm, h.allowed.symm⟩

theorem fingerprint (h : s.Agree s') : s.fingerprint = s'.fingerprint := by
  unfold Settings.fingerprint
  rw [h.dumpIr, h.elideGuards, h.nesting, mergeSort_eq h.allowed]

theorem nestingLimit (h : s.Agree s') : s.nestingLimit = s'.nestingLimit := by
  unfold Settings.nestingLimit
  rw [h.nesting]

theorem allows (h : s.Agree s') (op : Opcode) (hop : s.allowSet.all (·.contains op) = true) :
    s'.allowSet.all (·.contains op) = true := by
  unfold Settings.allowSet at hop ⊢
  rw [← h.allowed.isEmpty_eq]
  split
  · rfl
  · rename_i hne
    rw [if_neg hne] at hop
    simp only [Option.all_some, contains_iff_mem] at hop ⊢
    exact (h.allowed.filterMap _).mem_iff.1 hop

end Settings.Agree

/-! ## Liftings -/

namespace Lift

variable {cx v : Context}

/-- Freezing does not look at the limits. -/
theorem Context.twinAt_liftBody {t : State} (h : TwinAt cx v True t cx.build (cx.vary v).build) :
    TwinAt cx v True t cx.liftBody (cx.vary v).liftBody := by
  refine h.bind fun _ t1 _ => Twin.get (fun t r => ?_) t1
  dsimp only
  split
  · exact .pure _
  · exact twin_failAt

theorem Context.twin_liftBody (hlimit : cx.Admits v) : Twin cx v True cx.liftBody (cx.vary v).liftBody :=
  fun t => Context.twinAt_liftBody (Context.twin_build hlimit t)

/-- Under the same limits, a method is lifted to the same module or refused for the same reason. -/
theorem Context.liftBody_vary (h : cx.Admits v) (h' : v.Admits cx) (t : State) :
    ((cx.vary v).liftBody.run t).1 = (cx.liftBody.run t).1 := by
  obtain ⟨r, hr⟩ := Context.twin_liftBody h t t.records
  rcases hrun : cx.liftBody.run t with ⟨e | u, t'⟩ <;> rw [hrun] at hr
  · rw [hr h']
  · rw [hr.2]

end Lift

theorem liftMethod_eq (m : Method) (s : Settings) : liftMethod m s = match context m s with
    | .error e => .error { e with method := m.key }
    | .ok cx => (cx.liftBody.run { builder := .new m.key }).1.mapError fun e => { e with method := m.key } := by
  unfold liftMethod method attempt
  cases context m s with
  | error e => rfl
  | ok cx =>
    dsimp only
    rcases cx.liftBody.run { builder := .new m.key } with ⟨e | mod, t⟩ <;> rfl

/-- A lifting does not depend on how deep a method says that its stack gets. -/
theorem liftMethod_agree {m : Method} {s s' : Settings} (h : s.Agree s') (depth : Int) :
    liftMethod m s = liftMethod { m with maxStack := depth } s' := by
  rw [liftMethod_eq, liftMethod_eq]
  unfold context
  cases MethodType.parse m.desc with
  | error e => rfl
  | ok type =>
    have hblocks : Partition.ofMethod { m with maxStack := depth } = Partition.ofMethod m := rfl
    rw [hblocks]
    cases Partition.ofMethod m with
    | error e => rfl
    | ok partition =>
      let cx : Context := ⟨m, type, partition, s.allowSet, s.elideGuards, s.nestingLimit, s.debugLogs⟩
      let v : Context := { cx with
        method := { m with maxStack := depth }, allow := s'.allowSet, nestingLimit := s'.nestingLimit, debugLogs := s'.debugLogs }
      have hto : cx.Admits v := ⟨h.allows, h.nestingLimit.le⟩
      have hfrom : v.Admits cx := ⟨h.symm.allows, h.nestingLimit.ge⟩
      rw [← h.elideGuards]
      exact congrArg (Except.mapError _) (Context.liftBody_vary hto hfrom _).symm

variable {m m' : Method} {s s' : Settings}

/-- **The key determines the lifting of methods whose parts have the same lengths.** -/
theorem material_eq_iff (h : m.Alike m') (hs : s.validate = .ok ()) (hs' : s'.validate = .ok ()) :
    (CacheKey.material m s = CacheKey.material m' s' ↔ m' = { m with maxStack := m'.maxStack } ∧ s.Agree s') ∧
    (CacheKey.material m s = CacheKey.material m' s' → liftMethod m s = liftMethod m' s') := by
  have hparts (heq : CacheKey.material m s = CacheKey.material m' s') : m' = { m with maxStack := m'.maxStack } ∧ s.Agree s' := by
    obtain ⟨hm, hsettings⟩ := CacheKey.material_inj h heq
    obtain ⟨hdump, helide, hnesting, hallowed⟩ := Settings.fingerprint_spec hs hs' hsettings
    exact ⟨hm, hdump, helide, hnesting, hallowed⟩
  refine ⟨⟨hparts, fun ⟨hm, hagree⟩ => ?_⟩, fun heq => ?_⟩
  · rw [hm]
    unfold CacheKey.material
    rw [hagree.fingerprint]
    rfl
  · obtain ⟨hm, hagree⟩ := hparts heq
    rw [hm]
    exact liftMethod_agree hagree m'.maxStack

/-- A method that returns the constant it loads, under a row that catches anything. -/
def constantReturn (c : Constant) (depth : Int) : Method :=
  { owner := "T", name := "f", desc := "()I", isStatic := true, maxStack := depth
    code := [0x12, 1, 0xac, 0x57, 0x03, 0xac], exceptions := [{ start := 0, stop := 2, handler := 3 }]
    pool := ⟨#[c]⟩ }

/-- The order of the allowed mnemonics, the logs and the declared depth do not matter. -/
theorem constantReturn_lifts : ∃ m m' s s', m ≠ m' ∧ s ≠ s' ∧ CacheKey.material m s = CacheKey.material m' s' ∧
    (liftMethod m s).isOk = true ∧ liftMethod m s = liftMethod m' s' := by
  have hword {i : Int} (h : 0 ≤ i ∧ i ≤ 3) : CacheKey.IsWord i := ⟨by omega, by omega⟩
  have halike : (constantReturn (.int 5) 1).Alike (constantReturn (.int 5) 7) :=
    { owner := rfl, name := rfl, desc := rfl, code := rfl, isStatic := rfl, maxLocals := rfl
      exceptions := .cons ⟨rfl, ⟨hword (by decide), hword (by decide)⟩, ⟨hword (by decide), hword (by decide)⟩,
        hword (by decide), hword (by decide)⟩ .nil
      pool := .cons rfl .nil }
  let s : Settings := { allowed := ["ldc", "ireturn"] }
  let s' : Settings := { allowed := ["ireturn", "ldc"], debugLogs := true }
  have hs : s.validate = .ok () := by decide +kernel
  have hs' : s'.validate = .ok () := by decide +kernel
  have hkey := (material_eq_iff halike hs hs').1.2 ⟨rfl, rfl, rfl, rfl, .swap _ _ _⟩
  exact ⟨_, _, s, s', by decide +kernel, by decide +kernel, hkey, by decide +kernel, (material_eq_iff halike hs hs').2 hkey⟩

/-- Constants of two kinds have one text: one method is lifted and the other one is refused. -/
theorem constantReturn_keys : ∃ m m' s, s.validate = .ok () ∧ CacheKey.material m s = CacheKey.material m' s ∧
    (liftMethod m s).isOk = true ∧ (liftMethod m' s).isOk = false := by
  refine ⟨constantReturn (.int 5) 1, constantReturn (.long 5) 1, {}, by decide +kernel, ?_, by decide +kernel, by decide +kernel⟩
  rfl

end Bytelift
