import Bytelift.Code.Assembler

/-!
# The calls of an assembler

Almost every call does one of two things. It is refused, and then it records an error and nothing else (`Call.apply_refused`). Or it is
accepted, and then it finds the constant that it wants, writes pieces of code and makes room for local variables
(`Call.apply_accepted`). Only a `lookupswitch` may be refused after a part of it is written.

Results:
* `Call.apply_keeps`: **a call keeps what recording an error, making room, finding a constant and writing keep**.
-/

namespace Bytelift

open Assembler

/-- A call of an assembler. -/
inductive Call
  | plain (op : Opcode)
  | int (op : Opcode) (v : Int)
  | pushInt (v : Int)
  | localOp (op : Opcode) (index : Int)
  | iinc (index delta : Int)
  | branch (op : Opcode) (label : Text)
  | tableSwitch (low : Int) (fallback : Text) (labels : List Text)
  | lookupSwitch (fallback : Text) (keys : List Int) (labels : List Text)
  | invoke (op : Opcode) (owner name desc : Text)
  | field (op : Opcode) (owner name desc : Text)
  | classOp (op : Opcode) (name : Text)
  | multiArray (desc : Text) (dims : Int)
  | ldcInt (v : Int)
  | ldcLong (v : Int)
  | ldcFloat (v : Double)
  | ldcDouble (v : Double)
  | ldcString (t : Text)
  | label (name : Text)
  | guardRange (t : TryEntry)
  | declareClass (c : ClassRef)
  | locals (n : Int)
  | stack (n : Int)

namespace Call

def apply (a : Assembler) : Call → Assembler
  | .plain op => a.op op
  | .int op v => a.int op v
  | .pushInt v => a.pushInt v
  | .localOp op n => a.localOp op n
  | .iinc n d => a.iinc n d
  | .branch op l => a.branch op l
  | .tableSwitch low l ls => a.tableSwitch low l ls
  | .lookupSwitch l ks ls => a.lookupSwitch l ks ls
  | .invoke op owner name desc => a.invoke op owner name desc
  | .field op owner name desc => a.field op owner name desc
  | .classOp op name => a.classOp op name
  | .multiArray desc dims => a.multiArray desc dims
  | .ldcInt v => a.ldcInt v
  | .ldcLong v => a.ldcLong v
  | .ldcFloat v => a.ldcFloat v
  | .ldcDouble v => a.ldcDouble v
  | .ldcString t => a.ldcString t
  | .label name => a.label name
  | .guardRange t => a.guardRange t
  | .declareClass c => a.declareClass c
  | .locals n => a.locals n
  | .stack n => a.stack n

/-- The calls that write an instruction. -/
def emits : Call → Bool
  | .label _ | .guardRange _ | .declareClass _ | .locals _ | .stack _ => false
  | _ => true

/-- The row of the exception table that a call adds. -/
def row? : Call → Option TryEntry
  | .guardRange t => some t
  | _ => none

end Call

/-! ## One step -/

/-- A part of code that is being assembled: bytes, or the position of a label relative to a bci, which is filled in at the end. -/
inductive Piece
  | bytes (bs : List UInt8)
  | jump (base : Nat) (isLong : Bool) (label : Text)

/-- What a call wants of the constant pool. -/
inductive Wanted
  | nothing
  | constant (key : InternKey) (c : Constant)
  | cls (name : Text)

namespace Assembler

/-- The index of a constant, which is added to the pool if it is new. -/
def find (a : Assembler) : Wanted → Assembler × Nat
  | .nothing => (a, 0)
  | .constant key c => a.intern key c
  | .cls name => a.classIndex name

def putPiece (a : Assembler) : Piece → Assembler
  | .bytes bs => a.emit bs
  | .jump base isLong l => a.reference base isLong l

def put (a : Assembler) (ps : List Piece) : Assembler := ps.foldl putPiece a

/-- Finds a constant, writes pieces and makes room for local variables. -/
def act (a : Assembler) (room : Option Int) (w : Wanted) (ps : List Piece) : Assembler :=
  room.elim ((a.find w).1.put ps) ((a.find w).1.put ps).locals

/-- The number of local variables that one at an index takes. -/
def slots (index : Int) (isWide : Bool) : Int := (Int64.ofInt (if isWide then index + 2 else index + 1)).toInt

theorem intern_emit (a : Assembler) (bs : List UInt8) (key : InternKey) (c : Constant) :
    (a.emit bs).intern key c = ((a.intern key c).1.emit bs, (a.intern key c).2) := by
  unfold intern
  rw [show (a.emit bs).interned = a.interned from rfl]
  cases a.interned[key]? <;> rfl

theorem classIndex_emit (a : Assembler) (bs : List UInt8) (name : Text) :
    (a.emit bs).classIndex name = ((a.classIndex name).1.emit bs, (a.classIndex name).2) := by
  unfold classIndex classRef
  rw [show (a.emit bs).classes = a.classes from rfl]
  cases a.classes[name]? with
  | some d => exact a.intern_emit bs _ _
  | none => exact intern_emit { a with classes := a.classes.insert name { name } } bs _ _

theorem find_emit (a : Assembler) (bs : List UInt8) (w : Wanted) : (a.emit bs).find w = ((a.find w).1.emit bs, (a.find w).2) := by
  cases w with
  | nothing => rfl
  | constant key c => exact a.intern_emit bs key c
  | cls name => exact a.classIndex_emit bs name

theorem find_eq (a : Assembler) (w : Wanted) : ∃ pool interned classes,
    (a.find w).1 = { a with pool := pool, interned := interned, classes := classes } := by
  have hintern (b : Assembler) (key : InternKey) (c : Constant) : ∃ pool interned classes,
      (b.intern key c).1 = { b with pool := pool, interned := interned, classes := classes } := by
    unfold intern
    cases b.interned[key]? with
    | some n => exact ⟨b.pool, b.interned, b.classes, rfl⟩
    | none => exact ⟨_, _, b.classes, rfl⟩
  cases w with
  | nothing => exact ⟨a.pool, a.interned, a.classes, rfl⟩
  | constant key c => exact hintern a key c
  | cls name =>
    rw [find, classIndex, classRef]
    cases a.classes[name]? with
    | some d => exact hintern a _ _
    | none => exact hintern { a with classes := a.classes.insert name { name } } _ _

theorem emit_emit (a : Assembler) (bs cs : List UInt8) : (a.emit bs).emit cs = a.emit (bs ++ cs) := by
  simp [emit, Array.append_assoc]

theorem ldc_eq (a : Assembler) (n : Nat) :
    a.ldc n = a.emit (if n ≤ 255 then [Opcode.ldc.byte, lowByte n] else Opcode.ldcW.byte :: bytes2 n) := by
  unfold ldc
  split
  · rfl
  · exact a.emit_emit _ _

/-- The opcode may be written before the constant is found. -/
theorem emit_find (a : Assembler) (b : UInt8) (w : Wanted) (f : Nat → List UInt8) :
    ((a.emit [b]).find w).1.emit (f ((a.emit [b]).find w).2) = (a.find w).1.emit (b :: f (a.find w).2) := by
  rw [find_emit, emit_emit]
  rfl

theorem put_append (a : Assembler) (ps qs : List Piece) : a.put (ps ++ qs) = (a.put ps).put qs := List.foldl_append

end Assembler

namespace Call

/-- The room for local variables that a call makes. -/
def room : Call → Option Int
  | .plain (.loadAt l n) | .plain (.storeAt l n) => some (slots n.val l.isWide)
  | .localOp (.load l) n | .localOp (.store l) n => some (slots n l.isWide)
  | .localOp _ n | .iinc n _ => some (slots n false)
  | _ => none

/-- The constant that a call wants. -/
def wanted (a : Assembler) : Call → Wanted
  | .invoke op owner name desc => .constant (.method (methodKey owner name desc)) (.method ⟨owner, name, desc, op == .invoke .interface⟩)
  | .field _ owner name desc => .constant (.field (fieldKey (a.fieldOwner owner name) name)) (.field ⟨a.fieldOwner owner name, name, desc⟩)
  | .classOp _ name | .multiArray name _ => .cls name
  | .ldcInt v | .pushInt v => .constant (.int v) (.int (Int64.ofInt v))
  | .ldcLong v => .constant (.long v) (.long (Int64.ofInt v))
  | .ldcFloat v => .constant (.float v.toSingleBits) (.float v)
  | .ldcDouble v => .constant (.double v.bits) (.double v)
  | .ldcString t => .constant (.string t) (.string t)
  | _ => .nothing

/-- The index of the constant that a call wants. -/
def index (a : Assembler) (c : Call) : Nat := (a.find (c.wanted a)).2

/-- What stands behind the index of a called method. -/
def callTail (op : Opcode) (desc : Text) : List UInt8 :=
  match op with
  | .invoke .interface => [lowByte (((MethodType.parse desc).toOption.elim 0 (·.argSlots) : Nat) + 1), 0]
  | .invoke .dynamic => [0, 0]
  | _ => []

/-- The pieces that a call writes. Numbers that are too large for their place are cut. -/
def pieces (a : Assembler) (c : Call) : List Piece :=
  match c with
  | .plain op => [.bytes [op.byte]]
  | .int op v => [.bytes (op.byte :: if op = .sipush then bytes2 v else [lowByte v])]
  | .localOp op n => [.bytes (if 255 < n then Opcode.wide.byte :: op.byte :: bytes2 n else [op.byte, lowByte n])]
  | .iinc n d => [.bytes (if 255 < n ∨ d < -128 ∨ 127 < d then Opcode.wide.byte :: Opcode.iinc.byte :: (bytes2 n ++ bytes2 d)
      else [Opcode.iinc.byte, lowByte n, lowByte d])]
  | .branch op l => [.bytes [op.byte], .jump a.pos (op.encoding == .branchLong) l]
  | .tableSwitch low l ls => [.bytes [Opcode.tableswitch.byte], .bytes (List.replicate (Code.padding a.pos) 0), .jump a.pos true l,
      .bytes (bytes4 low), .bytes (bytes4 (low + ls.length - 1))] ++ ls.map (.jump a.pos true)
  | .invoke op _ _ desc => [.bytes (op.byte :: (bytes2 (c.index a) ++ callTail op desc))]
  | .field op _ _ _ | .classOp op _ => [.bytes (op.byte :: bytes2 (c.index a))]
  | .multiArray _ dims => [.bytes (Opcode.multianewarray.byte :: (bytes2 (c.index a) ++ [lowByte dims]))]
  | .ldcInt _ | .ldcFloat _ | .ldcString _ =>
    [.bytes (if c.index a ≤ 255 then [Opcode.ldc.byte, lowByte (c.index a)] else Opcode.ldcW.byte :: bytes2 (c.index a))]
  | .ldcLong _ | .ldcDouble _ => [.bytes (Opcode.ldc2W.byte :: bytes2 (c.index a))]
  | _ => []

/-- A call is refused. -/
def Refused : Call → Prop
  | .plain op => op.isDefined = false ∨ op.encoding ≠ .none
  | .int op v => (op = .bipush → v < -128 ∨ 127 < v) ∧ (op = .sipush → v < -32768 ∨ 32767 < v) ∧
      (op = .newarray → (Kind.ofArrayTag? v).isNone)
  | .localOp op _ => (∀ l, op ≠ .load l ∧ op ≠ .store l) ∧ op ≠ .ret
  | .branch op _ => op.encoding ≠ .branchShort ∧ op.encoding ≠ .branchLong
  | .tableSwitch _ _ ls => ls = []
  | .invoke op _ _ desc => (∀ k, op ≠ .invoke k) ∨ op = .invoke .interface ∧ ∃ e, MethodType.parse desc = .error e
  | .field op _ _ _ => ∀ f, op ≠ .field f
  | .classOp op _ => op ≠ .new ∧ op ≠ .anewarray ∧ op ≠ .checkcast ∧ op ≠ .instanceof
  | .multiArray desc dims => ∀ t, FieldType.parse desc = .ok t → dims < 1 ∨ (t.dims : Int) < dims ∨ 255 < dims
  | _ => False

/-- The calls that are one step. -/
def isStep : Call → Bool
  | .pushInt _ | .lookupSwitch .. => false
  | c => c.emits

variable {a : Assembler} {c : Call}

theorem apply_refused (hc : c.isStep = true) (hr : c.Refused) : ∃ e, c.apply a = a.fail e := by
  cases c with
  | plain op =>
    by_cases hdef : op.isDefined = false
    · exact ⟨_, if_pos (by simp [hdef])⟩
    · refine ⟨_, (if_neg (by simpa using hdef)).trans (if_pos (hr.resolve_left hdef))⟩
  | int op v =>
    obtain ⟨hbyte, hshort, htag⟩ := hr
    cases op with
    | bipush => exact ⟨_, if_pos (hbyte rfl)⟩
    | sipush => exact ⟨_, if_pos (hshort rfl)⟩
    | newarray => exact ⟨_, if_pos (htag rfl)⟩
    | _ => exact ⟨_, rfl⟩
  | localOp op n =>
    refine ⟨.noLocal op, ?_⟩
    cases op <;> first | rfl | exact absurd rfl (hr.1 _).1 | exact absurd rfl (hr.1 _).2 | exact absurd rfl hr.2
  | branch op l =>
    refine ⟨.notBranch op, ?_⟩
    unfold apply Assembler.branch
    split <;> first | rfl | simp_all [Refused]
  | tableSwitch low l ls => exact ⟨_, if_pos (List.isEmpty_iff.2 hr)⟩
  | invoke op owner name desc =>
    rcases hr with hop | ⟨rfl, e, he⟩
    · refine ⟨.notInvoke op, ?_⟩
      cases op <;> first | rfl | exact absurd rfl (hop _)
    · exact ⟨.descriptor e, by simp only [apply, Assembler.invoke, he]⟩
  | field op owner name desc =>
    refine ⟨.notField op, ?_⟩
    cases op <;> first | rfl | exact absurd rfl (hr _)
  | classOp op name =>
    refine ⟨.noClass op, ?_⟩
    obtain ⟨h1, h2, h3, h4⟩ := hr
    cases op <;> first | rfl | contradiction
  | multiArray desc dims =>
    unfold apply Assembler.multiArray
    dsimp only
    cases ht : FieldType.parse desc with
    | error e => exact ⟨_, rfl⟩
    | ok t => exact ⟨_, if_pos (hr t ht)⟩
  | iinc | ldcInt | ldcLong | ldcFloat | ldcDouble | ldcString => exact hr.elim
  | _ => cases hc

/-- **What a call does that is accepted.** -/
theorem apply_accepted (hc : c.isStep = true) (hr : ¬ c.Refused) : c.apply a = a.act c.room (c.wanted a) (c.pieces a) := by
  cases c with
  | plain op =>
    obtain ⟨hdef, henc⟩ := not_or.1 hr
    unfold apply Assembler.op
    dsimp only
    rw [if_neg (by simpa using hdef), if_neg henc]
    cases op <;> rfl
  | int op v =>
    cases op with
    | bipush => exact if_neg fun h => hr ⟨fun _ => h, nofun, nofun⟩
    | sipush =>
      refine (if_neg fun h => hr ⟨nofun, fun _ => h, nofun⟩).trans ?_
      exact a.emit_emit _ _
    | newarray => exact if_neg fun h => hr ⟨nofun, nofun, fun _ => h⟩
    | _ => exact absurd ⟨nofun, nofun, nofun⟩ hr
  | localOp op n =>
    have indexed (m : Int) : (if 255 < n then ((a.locals m).emit [Opcode.wide.byte, op.byte]).emit2 n
        else (a.locals m).emit [op.byte, lowByte n]) = (a.put ((Call.localOp op n).pieces a)).locals m := by
      rw [pieces]
      split
      · exact (a.locals m).emit_emit _ _
      · rfl
    cases op with
    | load l | store l | ret => exact indexed _
    | _ => exact absurd ⟨fun l => ⟨nofun, nofun⟩, nofun⟩ hr
  | iinc n d =>
    rw [pieces, apply, Assembler.iinc]
    split
    · rw [emit2, emit2, emit_emit, emit_emit]
      rfl
    · rfl
  | branch op l =>
    rw [pieces, apply, Assembler.branch]
    split
    · rename_i henc
      rw [henc]
      rfl
    · rename_i henc
      rw [henc]
      rfl
    · rename_i hshort hlong
      exact absurd ⟨hshort, hlong⟩ hr
  | tableSwitch low l ls =>
    refine (if_neg fun h => hr (List.isEmpty_iff.1 h)).trans ?_
    dsimp only [act, room, Option.elim_none]
    rw [pieces, put_append]
    unfold put
    rw [List.foldl_map]
    have hpos : (a.emit [Opcode.tableswitch.byte]).pos = a.pos + 1 := by simp [pos, emit]
    simp only [pad, hpos]
    rfl
  | invoke op owner name desc =>
    have call (tail : List UInt8) (htail : callTail op desc = tail) (b : Assembler)
        (hb : b = ((((a.emit [op.byte]).find ((Call.invoke op owner name desc).wanted a)).1.emit2
          ((a.emit [op.byte]).find ((Call.invoke op owner name desc).wanted a)).2).emit tail)) :
        b = a.act none ((Call.invoke op owner name desc).wanted a) ((Call.invoke op owner name desc).pieces a) := by
      rw [hb, pieces, htail, emit2, emit_emit]
      exact a.emit_find op.byte _ fun n => bytes2 n ++ tail
    cases op with
    | invoke k =>
      cases k with
      | interface =>
        cases ht : MethodType.parse desc with
        | error e => exact absurd (.inr ⟨rfl, e, ht⟩) hr
        | ok t =>
          refine call [lowByte (t.argSlots + 1), 0] ?_ _ ?_
          · rw [callTail, ht]
            rfl
          · rw [apply, Assembler.invoke, ht]
            rfl
      | _ => exact call _ rfl _ rfl
    | _ => exact absurd (.inl nofun) hr
  | field op owner name desc =>
    have access : ((a.emit [op.byte]).fieldIndex owner name desc).1.emit2 ((a.emit [op.byte]).fieldIndex owner name desc).2 =
        a.act none ((Call.field op owner name desc).wanted a) ((Call.field op owner name desc).pieces a) :=
      a.emit_find op.byte ((Call.field op owner name desc).wanted a) fun n => bytes2 n
    cases op with
    | field f => exact access
    | _ => exact absurd nofun hr
  | classOp op name =>
    have access : ((a.emit [op.byte]).classIndex name).1.emit2 ((a.emit [op.byte]).classIndex name).2 =
        a.act none (.cls name) ((Call.classOp op name).pieces a) := a.emit_find op.byte (.cls name) fun n => bytes2 n
    cases op with
    | new | anewarray | checkcast | instanceof => exact access
    | _ => exact absurd ⟨nofun, nofun, nofun, nofun⟩ hr
  | multiArray desc dims =>
    rw [apply, Assembler.multiArray]
    cases ht : FieldType.parse desc with
    | error e => exact absurd (fun t ht' => nomatch ht.symm.trans ht') hr
    | ok t =>
      dsimp only
      rw [if_neg fun h => hr fun t' ht' => by cases ht.symm.trans ht'; exact h, emit2, emit_emit]
      exact a.emit_find _ (.cls desc) fun n => bytes2 n ++ [lowByte dims]
  | ldcInt | ldcFloat | ldcString => exact ldc_eq _ _
  | ldcLong | ldcDouble => exact emit_emit _ _ _
  | _ => cases hc

/-- The call that pushes an int with the shortest instruction. -/
def shortest (v : Int) : Call :=
  match Assembler.smallInt? v with
  | some op => .plain op
  | none => if -128 ≤ v ∧ v ≤ 127 then .int .bipush v else if -32768 ≤ v ∧ v ≤ 32767 then .int .sipush v else .ldcInt v

theorem apply_pushInt (a : Assembler) (v : Int) : (Call.pushInt v).apply a = (shortest v).apply a := by
  rw [apply, Assembler.pushInt, shortest]
  cases Assembler.smallInt? v with
  | some op => rfl
  | none =>
    dsimp only
    split
    · rfl
    · split <;> rfl

theorem shortest_cases (v : Int) : (∃ op, smallInt? v = some op ∧ shortest v = .plain op) ∨
    shortest v = .int .bipush v ∨ shortest v = .int .sipush v ∨ shortest v = .ldcInt v := by
  unfold shortest
  cases smallInt? v with
  | some op => exact .inl ⟨op, rfl, rfl⟩
  | none =>
    refine .inr ?_
    dsimp only
    split
    · exact .inl rfl
    · split
      · exact .inr (.inl rfl)
      · exact .inr (.inr rfl)

/-- A property of assemblers that the parts of a call keep. -/
structure Stable (P : Assembler → Prop) : Prop where
  fail : ∀ a e, P a → P (a.fail e)
  locals : ∀ a n, P a → P (a.locals n)
  emit : ∀ a bs, P a → P (a.emit bs)
  reference : ∀ a base isLong l, P a → P (a.reference base isLong l)

variable {P : Assembler → Prop}

theorem Stable.put (h : Stable P) (ps : List Piece) {a : Assembler} (ha : P a) : P (a.put ps) := by
  induction ps generalizing a with
  | nil => exact ha
  | cons p ps ih =>
    cases p with
    | bytes bs => exact ih (h.emit a bs ha)
    | jump base isLong l => exact ih (h.reference a base isLong l ha)

theorem Stable.lookupArms (h : Stable P) (base : Nat) (previous : Option Int) (arms : List (Int × Text)) {a : Assembler} (ha : P a) :
    P (lookupArms base a previous arms) := by
  induction arms generalizing a previous with
  | nil => exact ha
  | cons arm arms ih =>
    rw [Assembler.lookupArms]
    split
    · exact h.fail a _ ha
    · exact ih _ (h.reference _ _ _ _ (h.emit a _ ha))

/-- A step keeps what finding its constant keeps too. -/
theorem Stable.step (h : Stable P) (hc : c.isStep = true) (hfind : ∀ b, P b → P (b.find (c.wanted a)).1) (ha : P a) : P (c.apply a) := by
  by_cases hr : c.Refused
  · obtain ⟨e, he⟩ := apply_refused (a := a) hc hr
    exact he ▸ h.fail a e ha
  rw [apply_accepted hc hr]
  have hput := h.put (c.pieces a) (hfind a ha)
  cases c.room with
  | none => exact hput
  | some n => exact h.locals _ n hput

/-- **A call that writes an instruction keeps what its parts keep.** -/
theorem apply_keeps (h : Stable P) (hc : c.emits = true) (hfind : ∀ b, P b → P (b.find (c.wanted a)).1) (ha : P a) : P (c.apply a) := by
  cases c with
  | pushInt v =>
    rw [apply_pushInt]
    obtain ⟨op, -, hv⟩ | hv | hv | hv := shortest_cases v <;> rw [hv]
    iterate 3 exact h.step rfl (fun b hb => hb) ha
    exact h.step rfl hfind ha
  | lookupSwitch l keys ls =>
    rw [apply, Assembler.lookupSwitch]
    split
    · exact h.fail a _ ha
    · exact h.lookupArms _ _ _ (h.emit _ _ (h.reference _ _ _ _ (h.emit _ _ (h.emit a _ ha))))
  | label | guardRange | declareClass | locals | stack => cases hc
  | _ => exact h.step rfl hfind ha

/-- The assembler after some calls. -/
def run (a : Assembler) (cs : List Call) : Assembler := cs.foldl apply a

end Call

/-! ## What is not written -/

namespace Assembler

variable {a : Assembler}

/-- What an assembler was opened with, and the rows that it was given. -/
def outline (a : Assembler) : (Text × Text × Text × Bool) × List TryEntry :=
  ((a.owner, a.name, a.desc, a.isStatic), a.tries.toList)

theorem outline_find (w : Wanted) : (a.find w).1.outline = a.outline := by
  obtain ⟨pool, interned, classes, h⟩ := a.find_eq w
  rw [h]
  rfl

theorem outline_reference (base : Nat) (isLong : Bool) (l : Text) : (a.reference base isLong l).outline = a.outline := by
  cases isLong <;> rfl

theorem outline_declareClasses (classes : List ClassRef) : (classes.foldl declareClass a).outline = a.outline := by
  induction classes generalizing a with
  | nil => rfl
  | cons c classes ih => exact ih

/-- **A call adds the row that it is for**, and keeps what the assembler was opened with. -/
theorem outline_apply (c : Call) : (c.apply a).outline = (a.outline.1, a.outline.2 ++ c.row?.toList) := by
  have hsame (hrow : c.row? = none) (h : (c.apply a).outline = a.outline) :
      (c.apply a).outline = (a.outline.1, a.outline.2 ++ c.row?.toList) := by simp [h, hrow]
  by_cases hemits : c.emits = true
  · refine hsame (by cases c <;> first | rfl | cases hemits) ?_
    refine Call.apply_keeps (P := fun b => b.outline = a.outline) ⟨fun _ _ => id, fun _ _ => id, fun _ _ => id, fun b base isLong l hb => ?_⟩
      hemits (fun b hb => ?_) rfl
    · rwa [outline_reference]
    · rwa [outline_find]
  cases c with
  | label l =>
    refine hsame rfl ?_
    rw [Call.apply, label]
    split <;> rfl
  | guardRange t => exact congrArg (Prod.mk a.outline.1) Array.toList_push
  | declareClass | locals | stack => exact hsame rfl rfl
  | _ => exact absurd rfl hemits

theorem outline_run (cs : List Call) : (Call.run a cs).outline = (a.outline.1, a.outline.2 ++ cs.filterMap Call.row?) := by
  induction cs generalizing a with
  | nil => simp [Call.run]
  | cons c cs ih =>
    change (Call.run (c.apply a) cs).outline = _
    rw [ih, outline_apply]
    cases hrow : c.row? <;> simp [hrow]

end Assembler

end Bytelift
