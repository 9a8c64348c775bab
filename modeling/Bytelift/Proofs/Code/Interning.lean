import Bytelift.Proofs.Code.Assembled
import Bytelift.Proofs.Text.Lines

/-!
# Interned constants

A call that needs a constant interns it: it returns the index of the constant or writes an instruction with that index, and asking again
gives the index of the first one. What constants are told apart by is their key, which for methods and fields is the symbol alone. So
indices are faithful as long as the symbols tell the methods and the fields apart that are asked for, and as long as the indices fit the
two bytes that instructions have for them.

Results:
* `InternKey.text_injective`: keys that are filed as texts are told apart by the texts.
* `Asking.run_faithful_iff`: **indices lead to the constants that were asked for exactly when symbols tell these apart.**
-/

namespace Bytelift

open List Code Constant Call Text
open Assembler (lowByte bytes2)

/-- A single precision number, held as the double that it equals. -/
structure Single where
  value : Double
  isSingle : value.toSingle = value

/-- A call of an assembler that asks for a constant: for its index, or for an instruction with the index. -/
inductive Asking
  | classIndex (name : Text)
  | methodIndex (m : MethodRef)
  | fieldIndex (owner name desc : Text)
  | ldcInt (v : Int32)
  | ldcLong (v : Int64)
  | ldcFloat (v : Single)
  | ldcDouble (v : Double)
  | ldcString (t : Text)
  | invoke (op : Opcode) (owner name desc : Text)
  | field (op : Opcode) (owner name desc : Text)
  | classOp (op : Opcode) (name : Text)
  | multiArray (desc : Text) (dims : Int)

/-- The class of a name as it is declared, without a layout if it is not. -/
def Assembler.classNamed (a : Assembler) (name : Text) : ClassRef := (a.classes[name]?).getD { name }

namespace Asking

/-- The assembler after a call. -/
def apply (a : Assembler) : Asking → Assembler
  | .classIndex name => (a.classIndex name).1
  | .methodIndex m => (a.methodIndex m).1
  | .fieldIndex owner name desc => (a.fieldIndex owner name desc).1
  | .ldcInt v => a.ldcInt v.toInt
  | .ldcLong v => a.ldcLong v.toInt
  | .ldcFloat v => a.ldcFloat v.value
  | .ldcDouble v => a.ldcDouble v
  | .ldcString t => a.ldcString t
  | .invoke op owner name desc => a.invoke op owner name desc
  | .field op owner name desc => a.field op owner name desc
  | .classOp op name => a.classOp op name
  | .multiArray desc dims => a.multiArray desc dims

/-- The pool index of the instruction that stands in the code of `b` behind that of `a`. -/
def writtenIndex? (a b : Assembler) : Option Nat :=
  match b.code.toList.drop a.pos with
  | [] => none
  | x :: bs => (Code.decodeOne a.pos x bs).toOption.map (·.poolIndex)

/-- The index that a call returns, or that the instruction it writes has. -/
def index? (a : Assembler) : Asking → Option Nat
  | .classIndex name => some (a.classIndex name).2
  | .methodIndex m => some (a.methodIndex m).2
  | .fieldIndex owner name desc => some (a.fieldIndex owner name desc).2
  | q => writtenIndex? a (q.apply a)

/-- The constant that a call asks for; none for a call that is refused. -/
def asked (a : Assembler) : Asking → Option Constant
  | .classIndex name => some (.cls (a.classNamed name))
  | .methodIndex m => some (.method m)
  | .fieldIndex owner name desc => some (.field ⟨a.fieldOwner owner name, name, desc⟩)
  | .ldcInt v => some (.int v.toInt64)
  | .ldcLong v => some (.long v)
  | .ldcFloat v => some (.float v.value)
  | .ldcDouble v => some (.double v)
  | .ldcString t => some (.string t)
  | .invoke op owner name desc =>
    match op with
    | .invoke .interface => (MethodType.parse desc).toOption.map fun _ => .method ⟨owner, name, desc, true⟩
    | .invoke _ => some (.method ⟨owner, name, desc, false⟩)
    | _ => none
  | .field op owner name desc =>
    match op with
    | .field _ => some (.field ⟨a.fieldOwner owner name, name, desc⟩)
    | _ => none
  | .classOp op name =>
    match op with
    | .new | .anewarray | .checkcast | .instanceof => some (.cls (a.classNamed name))
    | _ => none
  | .multiArray desc dims =>
    match FieldType.parse desc with
    | .ok t => if 1 ≤ dims ∧ dims ≤ t.dims ∧ dims ≤ 255 then some (.cls (a.classNamed desc)) else none
    | .error _ => none

/-- The assembler after some calls. -/
def run (a : Assembler) (qs : List Asking) : Assembler := qs.foldl apply a

/-- The constants that calls ask for, in order, each with the index that the call returns or writes. -/
def answers : Assembler → List Asking → List (Constant × Option Nat)
  | _, [] => []
  | a, q :: qs => ((q.asked a).map fun c => (c, q.index? a)).toList ++ answers (q.apply a) qs

end Asking

/-! ## The texts of keys -/

/-- The text of a key. Fields and single precision numbers have one mark. -/
def InternKey.text : InternKey → Text
  | .cls name => byte 'C' :: byte ':' :: name
  | .method key => byte 'M' :: byte ':' :: key
  | .field key => byte 'F' :: byte ':' :: key
  | .int v => byte 'I' :: byte ':' :: ofInt v
  | .long v => byte 'J' :: byte ':' :: ofInt v
  | .float bits => byte 'F' :: byte ':' :: ofInt bits
  | .double bits => byte 'D' :: byte ':' :: ofInt bits.toInt64.toInt
  | .string t => byte 'S' :: byte ':' :: t

/-- **The keys of constants have different texts.** The symbol of a field holds a dot and no number does. -/
theorem InternKey.text_injective {c c' : Constant} {k k' : InternKey} (hk : c.internKey? = some k)
    (hk' : c'.internKey? = some k') (h : k.text = k'.text) : k = k' := by
  have hdot (f : FieldRef) (n : Int) : f.key ≠ ofInt n := fun heq => by
    have hmem : byte '.' ∈ f.key := mem_append_left _ (mem_append_right _ mem_cons_self)
    exact notMem_ofInt rfl (by decide) n (heq ▸ hmem)
  -- constants of different kinds differ in the mark, but for fields and single precision numbers
  cases c <;> cases c' <;> simp only [internKey?, Option.some.injEq, reduceCtorEq] at hk hk' <;> subst hk hk' <;> first
    | exact absurd (cons.inj h).1 (by decide)
    | replace h := (cons.inj (cons.inj h).2).2
  case int.int | long.long => rw [ofInt_injective h]
  case float.float => rw [Int.ofNat.inj (ofInt_injective h)]
  case double.double => exact congrArg (fun n : Int64 => InternKey.double n.toUInt64) (Int64.toInt_inj.1 (ofInt_injective h))
  case string.string | cls.cls | method.method | field.field => rw [h]
  case float.field => exact absurd h.symm (hdot _ _)
  case field.float => exact absurd h (hdot _ _)

namespace Assembler

variable {a b : Assembler} {key : InternKey} {c : Constant} {n : Nat}

/-! ## One constant -/

/-- Interning a class files the class first, which nothing else depends on. -/
theorem classIndex_eq (a : Assembler) (name : Text) : ∃ m : Std.HashMap Text ClassRef,
    a.classIndex name = ({ (a.intern (.cls name) (.cls (a.classNamed name))).1 with classes := m },
      (a.intern (.cls name) (.cls (a.classNamed name))).2) ∧
    m[name]? = some (a.classNamed name) ∧ ∀ (name' : Text) (d : ClassRef), a.classes[name']? = some d → m[name']? = some d := by
  unfold classIndex classRef classNamed
  cases hc : a.classes[name]? with
  | some d =>
    refine ⟨a.classes, ?_, hc, fun _ _ => id⟩
    dsimp only [Option.getD_some]
    unfold intern
    cases a.interned[InternKey.cls name]? <;> rfl
  | none =>
    refine ⟨a.classes.insert name { name }, ?_, Std.HashMap.getElem?_insert_self, fun name' d => insert_keeps hc⟩
    dsimp only [Option.getD_none]
    unfold intern
    cases a.interned[InternKey.cls name]? <;> rfl

/-- A call interns a constant: its key has an index afterwards, and what else there is to constants and classes stays. -/
structure Interns (a b : Assembler) (key : InternKey) (c : Constant) : Prop where
  filed : a.Sound → c.internKey? = some key
  pool : b.pool = (a.intern key c).1.pool
  interned : b.interned = (a.intern key c).1.interned
  classes : ∀ (name : Text) (d : ClassRef), a.classes[name]? = some d → b.classes[name]? = some d
  sound : a.Sound → b.Sound
  /-- A class that is asked for is filed. -/
  declared : a.Sound → ∀ d, c = .cls d → b.classes[d.name]? = some d

theorem interns_intern (hkey : c.internKey? = some key) (hcls : ∀ d, c ≠ .cls d) : Interns a (a.intern key c).1 key c where
  filed _ := hkey
  pool := rfl
  interned := rfl
  classes name d hd := by
    unfold intern
    cases a.interned[key]? <;> exact hd
  sound := (a.adds_intern key fun _ => hkey).1.sound
  declared _ d hd := absurd hd (hcls d)

theorem name_classNamed (ha : a.Sound) (name : Text) : (a.classNamed name).name = name := by
  unfold classNamed
  cases hc : a.classes[name]? with
  | some d => exact ha.classes name d hc
  | none => rfl

theorem interns_classIndex (a : Assembler) (name : Text) : Interns a (a.classIndex name).1 (.cls name) (.cls (a.classNamed name)) := by
  obtain ⟨m, heq, hm, hkeep⟩ := a.classIndex_eq name
  refine ⟨fun ha => ?_, by rw [heq], by rw [heq], by rw [heq]; exact hkeep, (a.adds_classIndex name).1.sound, fun ha d hd => ?_⟩
  · rw [internKey?, name_classNamed ha]
  · cases hd
    rw [heq, name_classNamed ha]
    exact hm

theorem Interns.put (h : Interns a b key c) (ps : List Piece) : Interns a (b.put ps) key c := by
  induction ps generalizing b with
  | nil => exact h
  | cons p ps ih =>
    refine ih ?_
    rcases p with bs | ⟨base, _ | _, l⟩ <;>
      exact ⟨h.filed, h.pool, h.interned, h.classes, fun ha => ⟨(h.sound ha).interned, (h.sound ha).classes⟩, h.declared⟩

/-- The constant that is wanted. -/
def constant? (a : Assembler) : Wanted → Option Constant
  | .nothing => none
  | .constant _ c => some c
  | .cls name => some (.cls (a.classNamed name))

theorem interns_find {w : Wanted} (hkey : w.Keyed) (hcls : ∀ key d, w ≠ .constant key (.cls d)) (hc : a.constant? w = some c) :
    ∃ key, Interns a (a.find w).1 key c ∧ (a.find w).2 = (a.intern key c).2 := by
  cases w with
  | nothing => cases hc
  | constant key k =>
    cases hc
    exact ⟨key, interns_intern hkey fun d hd => hcls key d (hd ▸ rfl), rfl⟩
  | cls name =>
    cases hc
    obtain ⟨m, heq, -⟩ := a.classIndex_eq name
    exact ⟨.cls name, interns_classIndex a name, by rw [find, heq]⟩

end Assembler

namespace Asking

open Assembler

variable {a b z : Assembler} {q : Asking} {qs : List Asking} {key : InternKey} {c : Constant} {d : Call} {n : Nat}

/-! ## The index in an instruction -/

theorem writtenIndex?_eq {bs : List UInt8} {i : Instruction} (hcode : b.code.toList = a.code.toList ++ bs) (hbci : i.bci = a.pos)
    (henc : i.Encodable) (hbs : Layout.Fits i.layout bs) : writtenIndex? a b = some i.poolIndex := by
  obtain ⟨x, bs, rfl⟩ := exists_cons_of_fits henc hbs
  have hdec : decodeOne i.bci x (bs ++ []) = .ok i := decodeOne_eq henc hbs
  rw [append_nil, hbci] at hdec
  unfold writtenIndex?
  rw [hcode, drop_left' a.length_code]
  dsimp only
  rw [hdec]
  rfl

/-- A call that wants a constant writes its index. The words of an interface call do not matter. -/
theorem writtenIndex?_apply (hd : d.isStep = true) (hr : ¬ d.Refused) (hw : d.wanted a ≠ .nothing) (hn : d.index a ≤ 65535) :
    writtenIndex? a (d.apply a) = some (d.index a) := by
  have hcode : (d.apply a).code.toList = a.code.toList ++ blank (d.pieces a) := by rw [apply_accepted hd hr, code_act]
  by_cases hover : d.Overflows a
  · have hover := hover.resolve_left (Nat.not_lt.2 hn)
    cases d with
    | invoke op owner name desc =>
      obtain ⟨rfl, t, ht, -⟩ := hover
      refine writtenIndex?_eq (i := Instruction.fixedAt a.pos (.invoke .interface) (.poolCount _ (u1 [lowByte (t.argSlots + 1)]))) hcode rfl
        (.fixed rfl ⟨hn, u1_le _⟩) ?_
      have hcount : [lowByte (u1 [lowByte (t.argSlots + 1)])] = [lowByte (t.argSlots + 1)] := lowByte_u1 (Nat.le_refl 1)
      rw [pieces, callTail, ht]
      refine Layout.fits_cons.2 ⟨rfl, Layout.fits_append.2 ⟨bytes2 _ ++ [lowByte (t.argSlots + 1)], [0], rfl,
        Layout.fits_fixed.2 ?_, Layout.fits_slack.2 rfl⟩⟩
      rw [hcount]
      rfl
    | localOp | iinc | tableSwitch => exact absurd rfl hw
    | _ => exact hover.elim
  · obtain ⟨i, hbci, henc, hbs, hi⟩ := encoded_blank hd hr hover
    rw [writtenIndex?_eq hcode hbci henc hbs, Instruction.poolIndex]
    cases d with
    | field | classOp | ldcInt | ldcLong | ldcFloat | ldcDouble | ldcString => rw [hi.2]
    | multiArray desc dims =>
      obtain ⟨-, k, -, ho⟩ := hi
      rw [ho]
    | invoke op owner name desc =>
      by_cases hop : op = .invoke .interface
      · obtain ⟨t, -, ho⟩ := hi.2.2 hop
        rw [ho]
      · rw [hi.2.1 hop]
    | pushInt => cases hd
    | _ => exact absurd rfl hw

/-! ## One call -/

/-- A call interns the constant that it asks for, and has its index if that fits two bytes. -/
def Answers (q : Asking) (a : Assembler) (c : Constant) : Prop :=
  ∃ key, Interns a (q.apply a) key c ∧ ((a.intern key c).2 ≤ 65535 → q.index? a = some (a.intern key c).2)

theorem answers_find {w : Wanted} (ps : List Piece) (hkey : w.Keyed) (hcls : ∀ key d, w ≠ .constant key (.cls d)) (hc : a.constant? w = some c)
    (happly : q.apply a = (a.find w).1.put ps) (hindex : (a.find w).2 ≤ 65535 → q.index? a = some (a.find w).2) : q.Answers a c := by
  obtain ⟨key, h, heq⟩ := interns_find hkey hcls hc
  rw [heq] at hindex
  exact ⟨key, happly ▸ h.put ps, hindex⟩

/-- The call that writes an instruction with the index. -/
def call? : Asking → Option Call
  | .classIndex _ | .methodIndex _ | .fieldIndex .. => none
  | .ldcInt v => some (.ldcInt v.toInt)
  | .ldcLong v => some (.ldcLong v.toInt)
  | .ldcFloat v => some (.ldcFloat v.value)
  | .ldcDouble v => some (.ldcDouble v)
  | .ldcString t => some (.ldcString t)
  | .invoke op owner name desc => some (.invoke op owner name desc)
  | .field op owner name desc => some (.field op owner name desc)
  | .classOp op name => some (.classOp op name)
  | .multiArray desc dims => some (.multiArray desc dims)

theorem asked_refused (hd : q.call? = some d) (hr : d.Refused) : q.asked a = none := by
  cases q with
  | invoke op owner name desc =>
    cases hd
    rcases hr with hop | ⟨rfl, e, he⟩
    · cases op <;> first | rfl | exact absurd rfl (hop _)
    · simp [asked, he, Except.toOption]
  | field op owner name desc =>
    cases hd
    cases op <;> first | rfl | exact absurd rfl (hr _)
  | classOp op name =>
    cases hd
    obtain ⟨h1, h2, h3, h4⟩ := hr
    cases op <;> first | rfl | contradiction
  | multiArray desc dims =>
    cases hd
    rw [asked]
    cases ht : FieldType.parse desc with
    | error e => rfl
    | ok t =>
      have := hr t ht
      exact if_neg (by omega)
  | _ => cases hd <;> exact hr.elim

theorem asked_accepted (hd : q.call? = some d) (hr : ¬ d.Refused) : q.asked a = a.constant? (d.wanted a) := by
  cases q with
  | ldcLong v =>
    cases hd
    simp [asked, constant?, wanted]
  | invoke op owner name desc =>
    cases hd
    cases op with
    | invoke k =>
      cases k with
      | interface =>
        cases ht : MethodType.parse desc with
        | error e => exact absurd (.inr ⟨rfl, e, ht⟩) hr
        | ok t =>
          rw [asked, ht]
          rfl
      | _ => rfl
    | _ => exact absurd (.inl nofun) hr
  | field op owner name desc =>
    cases hd
    cases op with
    | field f => rfl
    | _ => exact absurd nofun hr
  | classOp op name =>
    cases hd
    cases op with
    | new | anewarray | checkcast | instanceof => rfl
    | _ => exact absurd ⟨nofun, nofun, nofun, nofun⟩ hr
  | multiArray desc dims =>
    cases hd
    rw [asked]
    cases ht : FieldType.parse desc with
    | error e => exact absurd (fun t ht' => nomatch ht.symm.trans ht') hr
    | ok t =>
      refine if_pos ?_
      by_contra hdims
      refine hr fun t' ht' => ?_
      cases ht.symm.trans ht'
      omega
  | _ => cases hd <;> rfl

/-- **A call interns the constant that it asks for.** -/
theorem answers_apply (hc : q.asked a = some c) : q.Answers a c := by
  have written {d : Call} (hd : q.call? = some d) (hstep : d.isStep = true) (hroom : d.room = none) (happly : q.apply a = d.apply a)
      (hindex : q.index? a = writtenIndex? a (d.apply a)) (hkey : (d.wanted a).Keyed) (hcls : ∀ key k, d.wanted a ≠ .constant key (.cls k)) :
      q.Answers a c := by
    have hr : ¬ d.Refused := fun hr => by
      rw [asked_refused hd hr] at hc
      cases hc
    rw [asked_accepted hd hr] at hc
    refine answers_find (d.pieces a) hkey hcls hc ?_ fun hn => ?_
    · rw [happly, apply_accepted hstep hr, hroom]
      rfl
    · rw [hindex]
      refine writtenIndex?_apply hstep hr (fun hw => ?_) hn
      rw [hw] at hc
      cases hc
  cases q with
  | classIndex name => exact answers_find (w := .cls name) [] trivial (by simp) hc rfl fun _ => rfl
  | methodIndex m => exact answers_find (w := .constant (.method m.key) (.method m)) [] rfl (by simp) hc rfl fun _ => rfl
  | fieldIndex owner name desc =>
    exact answers_find (w := .constant (.field (fieldKey (a.fieldOwner owner name) name))
      (.field ⟨a.fieldOwner owner name, name, desc⟩)) [] rfl (by simp) hc rfl
      fun _ => rfl
  | ldcInt | ldcLong => exact written rfl rfl rfl rfl rfl (by simp [wanted, Wanted.Keyed, internKey?]) (by simp [wanted])
  | classOp | multiArray => exact written rfl rfl rfl rfl rfl trivial (by simp [wanted])
  | _ => exact written rfl rfl rfl rfl rfl rfl (by simp [wanted])

/-- A call that asks for nothing is a mistake, and that is all it does. -/
theorem apply_refused (hc : q.asked a = none) : ∃ e, q.apply a = a.fail e := by
  have refused {d : Call} (hd : q.call? = some d) (hstep : d.isStep = true) (happly : q.apply a = d.apply a) (hw : a.constant? (d.wanted a) ≠ none) :
      ∃ e, q.apply a = a.fail e := by
    by_cases hr : d.Refused
    · exact happly ▸ Call.apply_refused hstep hr
    · rw [asked_accepted hd hr] at hc
      exact absurd hc hw
  cases q with
  | classIndex | methodIndex | fieldIndex => cases hc
  | _ => exact refused rfl rfl rfl nofun

/-! ## A run of calls -/

/-- A call adds at most the constant that it asks for, behind the others and under a new key. -/
theorem pool_apply (a : Assembler) (q : Asking) : ((q.apply a).pool = a.pool ∧ (q.apply a).interned = a.interned) ∨
    ∃ c key, q.asked a = some c ∧ (a.Sound → c.internKey? = some key) ∧ a.interned[key]? = none ∧ (q.apply a).pool = a.pool.push c ∧
      (q.apply a).interned = a.interned.insert key a.pool.size := by
  cases hc : q.asked a with
  | none =>
    obtain ⟨e, he⟩ := apply_refused hc
    rw [he]
    exact .inl ⟨rfl, rfl⟩
  | some c =>
    obtain ⟨key, h, -⟩ := answers_apply hc
    rw [h.pool, h.interned]
    unfold intern
    cases hkey : a.interned[key]? with
    | some n => exact .inl ⟨rfl, rfl⟩
    | none => exact .inr ⟨c, key, rfl, h.filed, hkey, rfl, rfl⟩

theorem pool_le_apply (a : Assembler) (q : Asking) : a.pool.entries.toList <+: (q.apply a).pool.entries.toList := by
  rcases pool_apply a q with ⟨hpool, -⟩ | ⟨c, key, -, -, -, hpool, -⟩
  · rw [hpool]
  · rw [hpool, ConstantPool.push, Array.toList_push]
    exact prefix_append _ _

/-- **Later calls change no entry.** -/
theorem pool_le_run (a : Assembler) (qs : List Asking) : a.pool.entries.toList <+: (run a qs).pool.entries.toList := by
  induction qs generalizing a with
  | nil => exact prefix_refl _
  | cons q qs ih => exact (pool_le_apply a q).trans (ih (q.apply a))

theorem size_le_run (a : Assembler) (qs : List Asking) : a.pool.entries.size ≤ (run a qs).pool.entries.size := by
  simpa using (pool_le_run a qs).length_le

/-- What a call leaves as it is: keys keep their indices and classes their layouts. -/
structure Keeps (a b : Assembler) : Prop where
  interned : ∀ (key : InternKey) (n : Nat), a.interned[key]? = some n → b.interned[key]? = some n
  classes : ∀ (name : Text) (d : ClassRef), a.classes[name]? = some d → b.classes[name]? = some d
  sound : a.Sound → b.Sound

theorem keeps_apply (a : Assembler) (q : Asking) : Keeps a (q.apply a) := by
  have hinterned : ∀ (key : InternKey) (n : Nat), a.interned[key]? = some n → (q.apply a).interned[key]? = some n := by
    intro key n hn
    rcases pool_apply a q with ⟨-, hkeys⟩ | ⟨c, key', -, -, hnew, -, hkeys⟩
    · rwa [hkeys]
    · rw [hkeys]
      exact insert_keeps hnew hn
  cases hc : q.asked a with
  | some c =>
    obtain ⟨key, h, -⟩ := answers_apply hc
    exact ⟨hinterned, h.classes, h.sound⟩
  | none =>
    obtain ⟨e, he⟩ := apply_refused hc
    refine ⟨hinterned, ?_, ?_⟩ <;> rw [he]
    · exact fun _ _ => id
    · exact fun h => ⟨h.interned, h.classes⟩

theorem keeps_run (a : Assembler) (qs : List Asking) : Keeps a (run a qs) := by
  induction qs generalizing a with
  | nil => exact ⟨fun _ _ => id, fun _ _ => id, id⟩
  | cons q qs ih =>
    have h := keeps_apply a q
    have h' := ih (q.apply a)
    exact ⟨fun key n hn => h'.interned key n (h.interned key n hn), fun name d hd => h'.classes name d (h.classes name d hd),
      fun ha => h'.sound (h.sound ha)⟩

/-- A constant has the index of an answer. -/
def Filed (z : Assembler) (x : Constant × Option Nat) : Prop :=
  ∃ key n, x.1.internKey? = some key ∧ z.interned[key]? = some n ∧ x.2 = some n

theorem Filed.index_eq {x y : Constant × Option Nat} (hx : Filed z x) (hy : Filed z y) (hkeys : x.1.internKey? = y.1.internKey?) :
    x.2 = y.2 := by
  obtain ⟨key, n, hkey, hn, hindex⟩ := hx
  obtain ⟨key', n', hkey', hn', hindex'⟩ := hy
  obtain rfl : key = key' := Option.some.inj (hkey.symm.trans (hkeys.trans hkey'))
  rw [hindex, hindex', ← hn, hn']

theorem mem_answers {x : Constant × Option Nat} (h : x ∈ answers a qs) : ∃ pre, ∃ q : Asking, ∃ post, run a qs = run (q.apply (run a pre)) post ∧
    q.asked (run a pre) = some x.1 ∧ x.2 = q.index? (run a pre) := by
  induction qs generalizing a with
  | nil => nomatch h
  | cons q qs ih =>
    rcases mem_append.1 h with h | h
    · obtain ⟨c, hc, rfl⟩ := Option.map_eq_some_iff.1 (Option.mem_toList.1 h)
      exact ⟨[], q, qs, rfl, hc, rfl⟩
    · obtain ⟨pre, q', post, hrest⟩ := ih h
      exact ⟨q :: pre, q', post, hrest⟩

/-- The answer of a call is the index that its constant has from then on. -/
theorem filed_answers (ha : a.Sound) (hpool : (run a qs).pool.entries.size ≤ 65535) : ∀ x ∈ answers a qs, Filed (run a qs) x := by
  intro x hx
  obtain ⟨pre, q, post, hrun, hc, hx⟩ := mem_answers hx
  rw [hrun] at hpool ⊢
  have hpre := (keeps_run a pre).sound ha
  generalize run a pre = b at *
  obtain ⟨key, h, hindex⟩ := answers_apply hc
  have hkey : (q.apply b).interned[key]? = some (b.intern key x.1).2 := h.interned ▸ (b.adds_intern key h.filed).2
  obtain ⟨d, hd, -⟩ := (h.sound hpre).interned key _ hkey
  have hle : (b.intern key x.1).2 ≤ 65535 := by
    have := (lt_of_entry hd).2
    have := size_le_run (q.apply b) post
    omega
  exact ⟨key, _, h.filed hpre, (keeps_run (q.apply b) post).interned key _ hkey, hx.trans (hindex hle)⟩

/-- Every entry that has a key was asked for, before or by the calls. -/
theorem entry_asked {S : List Constant} (ha : a.Sound)
    (hS : ∀ (key : InternKey) (n : Nat), a.interned[key]? = some n → ∃ c ∈ S, a.pool.entry n = .ok c ∧ c.internKey? = some key)
    (hqs : ∀ x ∈ answers a qs, x.1 ∈ S) (hkey : (run a qs).interned[key]? = some n) :
    ∃ c ∈ S, (run a qs).pool.entry n = .ok c ∧ c.internKey? = some key := by
  induction qs generalizing a with
  | nil => exact hS key n hkey
  | cons q qs ih =>
    have hrest : ∀ x ∈ answers (q.apply a) qs, x.1 ∈ S := fun x hx => hqs x (mem_append_right _ hx)
    refine ih ((keeps_apply a q).sound ha) (fun key n hn => ?_) hrest hkey
    rcases pool_apply a q with ⟨hpool, hkeys⟩ | ⟨c, key', hc, hfiled, -, hpool, hkeys⟩
    · rw [hkeys] at hn
      rw [hpool]
      exact hS key n hn
    rw [hkeys, Std.HashMap.getElem?_insert] at hn
    rw [hpool]
    split at hn
    · rename_i heq
      cases hn
      refine ⟨c, hqs (c, q.index? a) (mem_append_left _ (by simp [hc])), entry_push_size a.pool (hfiled ha), ?_⟩
      rw [← beq_iff_eq.1 heq]
      exact hfiled ha
    · obtain ⟨d, hd, hentry, hdkey⟩ := hS key n hn
      exact ⟨d, hd, entry_push c hentry, hdkey⟩

/-! ## Faithful indices -/

/-- The classes that are asked for are those that are filed in the end. -/
theorem classes_answers (ha : a.Sound) {d : ClassRef} {o : Option Nat} (h : (cls d, o) ∈ answers a qs) :
    (run a qs).classes[d.name]? = some d := by
  obtain ⟨pre, q, post, hrun, hc, -⟩ := mem_answers h
  obtain ⟨key, h, -⟩ := answers_apply hc
  rw [hrun]
  exact (keeps_run (q.apply (run a pre)) post).classes _ _ (h.declared ((keeps_run a pre).sound ha) d rfl)

/-- The floats that are asked for are single precision numbers. -/
theorem single_of_asked {v : Double} (h : q.asked a = some (.float v)) : v.toSingle = v := by
  cases q with
  | ldcFloat w =>
    cases h
    exact w.isSingle
  | invoke op owner name desc =>
    cases op with
    | invoke k => cases k <;> simp [asked] at h
    | _ => cases h
  | field op owner name desc | classOp op name => cases op <;> cases h
  | multiArray desc dims =>
    rw [asked] at h
    split at h
    · split at h <;> cases h
    · cases h
  | _ => cases h

/-- Symbols tell the methods and the fields apart that calls ask for. -/
structure TellsApart (cs : List Constant) : Prop where
  methods : ∀ m m', Constant.method m ∈ cs → Constant.method m' ∈ cs → m.key = m'.key → m = m'
  fields : ∀ f f', Constant.field f ∈ cs → Constant.field f' ∈ cs → f.key = f'.key → f = f'

theorem TellsApart.eq (h : TellsApart ((answers a qs).map Prod.fst)) (ha : a.Sound) {c c' : Constant}
    (hc : c ∈ (answers a qs).map Prod.fst) (hc' : c' ∈ (answers a qs).map Prod.fst) (hkey : c.internKey? = some key)
    (hkey' : c'.internKey? = some key) : c = c' := by
  have hsingle (v : Double) (hv : .float v ∈ (answers a qs).map Prod.fst) : Double.ofSingleBits v.toSingleBits = v := by
    obtain ⟨x, hx, hv⟩ := mem_map.1 hv
    obtain ⟨pre, q, post, -, hc, -⟩ := mem_answers hx
    exact single_of_asked (hv ▸ hc)
  have hcls (d : ClassRef) (hd : .cls d ∈ (answers a qs).map Prod.fst) : (run a qs).classes[d.name]? = some d := by
    obtain ⟨⟨_, o⟩, hx, rfl⟩ := mem_map.1 hd
    exact classes_answers ha hx
  -- constants of different kinds have different keys
  have hkeys := hkey.trans hkey'.symm
  cases c <;> cases c' <;> simp only [internKey?, Option.some.injEq, InternKey.int.injEq, InternKey.long.injEq,
    InternKey.float.injEq, InternKey.double.injEq, InternKey.string.injEq, InternKey.cls.injEq, InternKey.method.injEq,
    InternKey.field.injEq, reduceCtorEq] at hkeys
  case invalid.invalid => rfl
  case int.int v v' | long.long v v' => rw [Int64.toInt_inj.1 hkeys]
  case float.float v v' => rw [← hsingle v hc, hkeys, hsingle v' hc']
  case double.double v v' => exact congrArg (fun b => double ⟨b⟩) hkeys
  case string.string t t' => rw [hkeys]
  case cls.cls d d' =>
    have hd := hcls d hc
    rw [hkeys, hcls d' hc'] at hd
    rw [Option.some.inj hd]
  case method.method m m' => rw [h.methods m m' hc hc' hkeys]
  case field.field f f' => rw [h.fields f f' hc hc' hkeys]

/-- Indices that calls return or write are faithful. -/
structure Faithful (a : Assembler) (qs : List Asking) : Prop where
  /-- The index that a call returns or writes leads to the constant that the call asked for. -/
  leads : ∀ x ∈ answers a qs, ∃ n, x.2 = some n ∧ (run a qs).pool.entry n = .ok x.1
  /-- Two calls share an index exactly when they ask for the same constant. -/
  shares : ∀ x ∈ answers a qs, ∀ y ∈ answers a qs, x.2 = y.2 ↔ x.1 = y.1
  /-- Later calls change no entry. -/
  keeps : ∀ pre post, qs = pre ++ post → (run a pre).pool.entries.toList <+: (run a qs).pool.entries.toList
  /-- A call that asks for nothing is refused. -/
  refuses : ∀ pre q post, qs = pre ++ q :: post → q.asked (run a pre) = none → ∃ e, q.apply (run a pre) = (run a pre).fail e

/-- An assembler that has interned nothing, with its classes filed under their names. -/
structure Unasked (a : Assembler) : Prop where
  interned : ∀ key : InternKey, a.interned[key]? = none
  classes : ∀ (name : Text) (d : ClassRef), a.classes[name]? = some d → d.name = name

theorem Unasked.sound (h : Unasked a) : a.Sound :=
  ⟨fun key n hn => (by rw [h.interned key] at hn; cases hn), h.classes⟩

/-- If symbols tell apart what is asked for, then indices lead to it. -/
theorem faithful_of_tellsApart (ha : Unasked a) (hpool : (run a qs).pool.entries.size ≤ 65535)
    (happart : TellsApart ((answers a qs).map Prod.fst)) : Faithful a qs := by
  have hfiled := filed_answers ha.sound hpool
  have hmem {x : Constant × Option Nat} (hx : x ∈ answers a qs) : x.1 ∈ (answers a qs).map Prod.fst := mem_map_of_mem hx
  have hleads : ∀ x ∈ answers a qs, ∃ n, x.2 = some n ∧ (run a qs).pool.entry n = .ok x.1 := by
    intro x hx
    obtain ⟨key, n, hkey, hn, hindex⟩ := hfiled x hx
    have hnone : ∀ (key : InternKey) (n : Nat), a.interned[key]? = some n →
        ∃ c ∈ (answers a qs).map Prod.fst, a.pool.entry n = .ok c ∧ c.internKey? = some key := by
      intro key n hn
      rw [ha.interned key] at hn
      cases hn
    obtain ⟨c, hc, hentry, hckey⟩ := entry_asked ha.sound hnone (fun _ => hmem) hn
    obtain rfl := happart.eq ha.sound hc (hmem hx) hckey hkey
    exact ⟨n, hindex, hentry⟩
  refine ⟨hleads, fun x hx y hy => ⟨fun heq => ?_, fun heq => ?_⟩, fun pre post hqs => ?_, fun pre q post _ hq => apply_refused hq⟩
  · obtain ⟨n, hn, hentry⟩ := hleads x hx
    obtain ⟨n', hn', hentry'⟩ := hleads y hy
    obtain rfl : n = n' := by
      rw [heq, hn'] at hn
      exact (Option.some.inj hn).symm
    rw [hentry] at hentry'
    exact Except.ok.inj hentry'
  · exact (hfiled x hx).index_eq (hfiled y hy) (by rw [heq])
  · subst hqs
    have hrun : run a (pre ++ post) = run (run a pre) post := foldl_append
    rw [hrun]
    exact pool_le_run (run a pre) post

/-- Constants with the same key share an index, so they have to be the same if indices lead to them. -/
theorem tellsApart_of_faithful (ha : Unasked a) (hpool : (run a qs).pool.entries.size ≤ 65535) (h : Faithful a qs) :
    TellsApart ((answers a qs).map Prod.fst) := by
  have heq {c c' : Constant} (hc : c ∈ (answers a qs).map Prod.fst) (hc' : c' ∈ (answers a qs).map Prod.fst)
      (hkeys : c.internKey? = c'.internKey?) : c = c' := by
    obtain ⟨x, hx, rfl⟩ := mem_map.1 hc
    obtain ⟨y, hy, rfl⟩ := mem_map.1 hc'
    have hfiled := filed_answers ha.sound hpool
    exact (h.shares x hx y hy).1 ((hfiled x hx).index_eq (hfiled y hy) hkeys)
  exact ⟨fun m m' hm hm' hkey => Constant.method.inj (heq hm hm' (congrArg (some <| InternKey.method ·) hkey)),
    fun f f' hf hf' hkey => Constant.field.inj (heq hf hf' (congrArg (some <| InternKey.field ·) hkey))⟩

/-- **Interning is faithful exactly when symbols tell the methods and the fields apart that are asked for.** -/
theorem run_faithful_iff (ha : Unasked a) (hpool : (run a qs).pool.entries.size ≤ 65535) :
    Faithful a qs ↔ TellsApart ((answers a qs).map Prod.fst) :=
  ⟨tellsApart_of_faithful ha hpool, faithful_of_tellsApart ha hpool⟩

theorem size_run_le (a : Assembler) (qs : List Asking) : (run a qs).pool.entries.size ≤ a.pool.entries.size + qs.length := by
  induction qs generalizing a with
  | nil => exact Nat.le_refl _
  | cons q qs ih =>
    have hq : (q.apply a).pool.entries.size ≤ a.pool.entries.size + 1 := by
      rcases pool_apply a q with ⟨hpool, -⟩ | ⟨c, key, -, -, -, hpool, -⟩
      · rw [hpool]
        exact Nat.le_succ _
      · simp [hpool, ConstantPool.push]
    have := ih (q.apply a)
    rw [length_cons]
    exact Nat.le_trans this (by omega)

/-- An assembler that knows a class `A` with a field `x`. -/
def layered : Assembler :=
  { owner := [84], name := [109], desc := [40, 41, 86], isStatic := true
    classes := ({} : Std.HashMap Text ClassRef).insert [65] ⟨[65], [79], [], [⟨[65], [120], [73]⟩]⟩ }

/-- Calls that ask for the field `A.x`, for an interface method `A.f`, for a long and for the method again. -/
def layeredCalls : List Asking :=
  [.fieldIndex [65] [120] [73], .invoke (.invoke .interface) [65] [102] [40, 41, 86], .ldcLong 5, .methodIndex ⟨[65], [102], [40, 41, 86], true⟩]

theorem answers_layered : (answers layered layeredCalls).map Prod.fst =
    [.field ⟨[65], [120], [73]⟩, .method ⟨[65], [102], [40, 41, 86], true⟩, .long 5, .method ⟨[65], [102], [40, 41, 86], true⟩] := by
  have howner : layered.fieldOwner [65] [120] = [65] := by
    rw [fieldOwner, layered, Std.HashMap.getElem?_insert_self]
    rfl
  obtain ⟨t, ht⟩ : ∃ t, MethodType.parse [40, 41, 86] = .ok t := ⟨_, rfl⟩
  simp [answers, layeredCalls, asked, howner, ht, Except.toOption]

theorem layered_faithful : Unasked layered ∧ (run layered layeredCalls).pool.entries.size ≤ 65535 ∧ Faithful layered layeredCalls := by
  have hnew : Unasked layered := by
    refine ⟨fun key => by simp [layered], fun name d hd => ?_⟩
    rw [layered, Std.HashMap.getElem?_insert] at hd
    split at hd
    · rename_i heq
      cases hd
      exact beq_iff_eq.1 heq
    · simp at hd
  have hpool : (run layered layeredCalls).pool.entries.size ≤ 65535 := Nat.le_trans (size_run_le layered layeredCalls) (by decide)
  refine ⟨hnew, hpool, (run_faithful_iff hnew hpool).2 ?_⟩
  rw [answers_layered]
  exact ⟨by simp, by simp⟩

/-- Calls that ask for the method `A.f` of a class and of an interface. -/
def twofold : List Asking := [.methodIndex ⟨[65], [102], [40, 41, 86], false⟩, .methodIndex ⟨[65], [102], [40, 41, 86], true⟩]

/-- The method of the interface gets the index of the method of the class. -/
theorem twofold_not_faithful : ¬ Faithful (start [84] [109] [40, 41, 86] true) twofold := by
  intro h
  have hnew : Unasked (start [84] [109] [40, 41, 86] true) := ⟨fun key => by simp [start], fun name d hd => by simp [start] at hd⟩
  have happart := tellsApart_of_faithful hnew (Nat.le_trans (size_run_le _ _) (by decide)) h
  have heq := happart.methods ⟨[65], [102], [40, 41, 86], false⟩ ⟨[65], [102], [40, 41, 86], true⟩ (by simp [answers, twofold, asked])
    (by simp [answers, twofold, asked]) rfl
  exact absurd (congrArg MethodRef.isInterface heq) (by decide)

end Asking
end Bytelift
