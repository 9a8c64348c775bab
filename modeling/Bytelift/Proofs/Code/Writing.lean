import Bytelift.Lift.Instruction
import Bytelift.Proofs.Code.Pieces
import Bytelift.Proofs.Code.Layout

/-!
# What the calls of an assembler write

Each call that writes an instruction asks for one: `Call.Asks` says which, in terms of the operands of the call, the labels of the
finished assembler and its constants. The bytes that the call writes are an encoding of that instruction once the labels are filled in,
whichever of its forms the assembler picks (`bipush`, `sipush` or `ldc`, short or wide), as long as no operand is too large.

Results:
* `Assembler.writes_apply`: **a call writes the instruction that it asks for.**
-/

namespace Bytelift

open List Assembler Code Layout Call
open Instruction (OperandFits WideFits TableFits Encodable switchAt wideAt fixedAt)

variable {v : Int} {l : Text}

namespace Call

/-- The operands of a call fit their encoding. -/
def Fits : Call → Prop
  | .pushInt v | .ldcInt v => -2147483648 ≤ v ∧ v ≤ 2147483647
  | .ldcLong v => -9223372036854775808 ≤ v ∧ v ≤ 9223372036854775807
  | .localOp _ n => 0 ≤ n ∧ n ≤ 65535
  | .iinc n d => 0 ≤ n ∧ n ≤ 65535 ∧ -32768 ≤ d ∧ d ≤ 32767
  | .tableSwitch low _ labels => -2147483648 ≤ low ∧ low + labels.length - 1 ≤ 2147483647
  | .lookupSwitch _ keys _ => ∀ k ∈ keys, -2147483648 ≤ k ∧ k ≤ 2147483647
  | .invoke op _ _ desc => op = .invoke .interface → ∀ t, MethodType.parse desc = .ok t → t.argSlots ≤ 254
  | _ => True

/-- An operand does not fit the field that it is encoded in. -/
def Overflows (a : Assembler) (c : Call) : Prop :=
  65535 < c.index a ∨ match c with
    | .localOp _ n => n < 0 ∨ 65535 < n
    | .iinc n d => n < 0 ∨ 65535 < n ∨ d < -32768 ∨ 32767 < d
    | .tableSwitch low _ ls => low < -2147483648 ∨ 2147483647 < low + ls.length - 1
    | .invoke op _ _ desc => op = .invoke .interface ∧ ∃ t, MethodType.parse desc = .ok t ∧ 255 < t.argSlots + 1
    | _ => False

/-- An instruction has the opcode and the operands of a call, with the labels placed. -/
def Holds (a : Assembler) (place : Text → Nat) (i : Instruction) (c : Call) : Prop :=
  match c with
  | .plain op => i.op = op ∧ i.operand = .none
  | .int op v => i.op = op ∧ i.operand = .imm v
  | .localOp op n => i.op = op ∧ ∃ k : Nat, (k : Int) = n ∧ i.operand = .localVar k
  | .iinc n d => i.op = .iinc ∧ ∃ k : Nat, (k : Int) = n ∧ i.operand = .increment k d
  | .branch op l => i.op = op ∧ i.operand = .branch (place l)
  | .tableSwitch low l ls => i.op = .tableswitch ∧ ∃ t, i.operand = .switch t ∧
      t.keys = ((List.range ls.length).map fun k : Nat => low + k) ∧ t.targets = (l :: ls).map fun l => (place l : Int)
  | .invoke op _ _ desc => i.op = op ∧ (op ≠ .invoke .interface → i.operand = .pool (c.index a)) ∧
      (op = .invoke .interface → ∃ t, MethodType.parse desc = .ok t ∧ i.operand = .poolCount (c.index a) (t.argSlots + 1))
  | .field op _ _ _ | .classOp op _ => i.op = op ∧ i.operand = .pool (c.index a)
  | .multiArray _ dims => i.op = .multianewarray ∧ ∃ k : Nat, (k : Int) = dims ∧ i.operand = .poolCount (c.index a) k
  | .ldcInt _ | .ldcFloat _ | .ldcString _ => (i.op = .ldc ∨ i.op = .ldcW) ∧ i.operand = .pool (c.index a)
  | .ldcLong _ | .ldcDouble _ => i.op = .ldc2W ∧ i.operand = .pool (c.index a)
  | _ => False

/-! ## Encodings -/

variable {a : Assembler} {c : Call} {place : Text → Nat} {bs : List UInt8}

/-- Bytes encode the operands of a call. -/
def Encoded (c : Call) (a : Assembler) (place : Text → Nat) (bs : List UInt8) : Prop :=
  ∃ i, i.bci = a.pos ∧ i.Encodable ∧ Layout.Fits i.layout bs ∧ c.Holds a place i

theorem encoded_fixed (op : Opcode) (o : Operand) {e : Encoding} (hdef : op.isDefined = true) (henc : op.encoding = e)
    (ho : OperandFits a.pos e o) (hbs : Layout.Fits (operandLayout a.pos e o) bs) (hi : c.Holds a place (fixedAt a.pos op o)) :
    c.Encoded a place (op.byte :: bs) := by
  subst henc
  refine ⟨_, rfl, .fixed hdef ho, ?_, hi⟩
  rw [layout_fixedAt ho, fits_cons]
  exact ⟨rfl, hbs⟩

theorem encoded_wide (op : Opcode) (o : Operand) (ho : WideFits op o) (hbs : Layout.Fits (wideLayout o) bs)
    (hi : c.Holds a place (wideAt a.pos op o)) : c.Encoded a place (Opcode.wide.byte :: op.byte :: bs) := by
  refine ⟨_, rfl, .wide ho, ?_, hi⟩
  rw [layout_wideAt ho, fits_cons, fits_cons]
  exact ⟨rfl, rfl, hbs⟩

theorem encoded_index (op : Opcode) (hdef : op.isDefined = true) (henc : op.encoding = .poolShort) (hfits : ¬ c.Overflows a)
    (hi : c.Holds a place (fixedAt a.pos op (.pool (c.index a)))) : c.Encoded a place (op.byte :: bytes2 (c.index a)) :=
  encoded_fixed op (.pool _) hdef henc (Nat.le_of_not_lt fun hn => hfits (.inl hn)) (Layout.fits_fixed.2 rfl) hi

/-- The labels that pieces name are near enough for the jumps. -/
def Near (place : Text → Nat) (ps : List Piece) : Prop :=
  ∀ (base : Nat) (isLong : Bool) (l : Text), .jump base isLong l ∈ ps → -2147483648 ≤ (place l : Int) - base ∧ (place l : Int) - base ≤ 2147483647 ∧
    (isLong = false → -32768 ≤ (place l : Int) - base ∧ (place l : Int) - base ≤ 32767)

theorem arrayTag_bounds (h : (Kind.ofArrayTag? v).isSome = true) : 0 ≤ v ∧ v ≤ 255 := by
  obtain ⟨k, hk⟩ := Option.isSome_iff_exists.1 h
  have hk := find?_some hk
  rw [Option.any_eq_true] at hk
  obtain ⟨t, ht, hv⟩ := hk
  have hle : 0 ≤ t ∧ t ≤ 255 := by cases k <;> cases ht <;> decide
  obtain rfl : t = v := of_decide_eq_true hv
  exact hle

theorem filled_bytes (place : Text → Nat) (bs : List UInt8) : filled place [.bytes bs] = bs := append_nil bs

theorem encoded_branch {op : Opcode} (hr : ¬ (branch op l).Refused) (hnear : Near place ((branch op l).pieces a)) :
    (branch op l).Encoded a place (filled place ((branch op l).pieces a)) := by
  obtain ⟨hlo, hhi, hshort⟩ := hnear a.pos (op.encoding == .branchLong) l (by simp [pieces])
  have hdef (henc : op.encoding = .branchShort ∨ op.encoding = .branchLong) : op.isDefined = true := by
    cases op <;> first | rfl | simp [Opcode.encoding] at henc
  rw [pieces]
  by_cases henc : op.encoding = .branchShort
  · rw [henc] at hshort ⊢
    exact encoded_fixed op (.branch (place l)) (hdef (.inl henc)) henc (hshort rfl) (fits_fixed.2 rfl) ⟨rfl, rfl⟩
  have henc : op.encoding = .branchLong := by
    by_contra hlong
    exact hr ⟨henc, hlong⟩
  rw [henc]
  exact encoded_fixed op (.branch (place l)) (hdef (.inr henc)) henc ⟨hlo, hhi⟩ (fits_fixed.2 rfl) ⟨rfl, rfl⟩

theorem encoded_tableSwitch {low : Int} {ls : List Text} (hr : ls ≠ []) (hfits : ¬ (tableSwitch low l ls).Overflows a)
    (hnear : Near place ((tableSwitch low l ls).pieces a)) :
    (tableSwitch low l ls).Encoded a place (filled place ((tableSwitch low l ls).pieces a)) := by
  simp only [Overflows, not_or] at hfits
  have hfar : ∀ l' ∈ l :: ls, -2147483648 ≤ (place l' : Int) - a.pos ∧ (place l' : Int) - a.pos ≤ 2147483647 := by
    intro l' hl'
    obtain ⟨hlo, hhi, -⟩ := hnear a.pos true l' (by rcases mem_cons.1 hl' with rfl | hl' <;> simp [pieces, *])
    exact ⟨hlo, hhi⟩
  have hws : ls.map (fun l' => (place l' : Int) - a.pos) ≠ [] := by simpa using hr
  have hlen := length_pos_iff.2 hr
  refine ⟨switchAt a.pos .tableswitch (countingTable a.pos ((place l : Int) - a.pos) low (ls.map fun l' => (place l' : Int) - a.pos)), rfl,
    .switch (counting_fits _ low hws ?_), ?_, rfl, _, rfl, ?_, ?_⟩
  · simp only [mem_append, mem_cons, not_mem_nil, or_false, length_map]
    rintro w ((rfl | rfl | rfl) | hw)
    · exact hfar l mem_cons_self
    · omega
    · omega
    · obtain ⟨l', hl', rfl⟩ := mem_map.1 hw
      exact hfar l' (mem_cons_of_mem l hl')
  · rw [layout_switchAt, numbers_counting _ _ hws, length_map, pieces]
    refine fits_cons.2 ⟨rfl, fits_append.2 ⟨_, _, ?_, fits_slack.2 (length_replicate (a := 0)), fits_fixed.2 rfl⟩⟩
    simp [Piece.filled, flatMap_map]
    rfl
  · rw [keys_counting, length_map]
  · rw [targets_counting]
    simp [Function.comp_def]

theorem encoded_invoke {op : Opcode} {owner name desc : Text} (hr : ¬ (invoke op owner name desc).Refused)
    (hfits : ¬ (invoke op owner name desc).Overflows a) :
    (invoke op owner name desc).Encoded a place (filled place ((invoke op owner name desc).pieces a)) := by
  have hindex : (invoke op owner name desc).index a ≤ 65535 := Nat.le_of_not_lt fun hn => hfits (.inl hn)
  obtain ⟨k, rfl⟩ : ∃ k, op = .invoke k := by simpa using fun h => hr (.inl h)
  rw [pieces, filled_bytes]
  cases k with
  | interface =>
    cases ht : MethodType.parse desc with
    | error e => exact absurd (.inr ⟨rfl, e, ht⟩) hr
    | ok t =>
      have hslots : t.argSlots + 1 ≤ 255 := Nat.le_of_not_lt fun h => hfits (.inr ⟨rfl, t, ht, h⟩)
      refine encoded_fixed (.invoke .interface) (.poolCount _ (t.argSlots + 1)) rfl rfl ⟨hindex, hslots⟩ ?_
        ⟨rfl, absurd rfl, fun _ => ⟨t, ht, rfl⟩⟩
      rw [callTail, ht]
      exact Layout.fits_append.2 ⟨bytes2 _ ++ [lowByte (t.argSlots + 1)], [0], rfl, Layout.fits_fixed.2 rfl, Layout.fits_slack.2 rfl⟩
  | dynamic =>
    refine encoded_fixed (.invoke .dynamic) (.pool _) rfl rfl hindex ?_ ⟨rfl, fun _ => rfl, by simp⟩
    exact fits_append.2 ⟨_, [0, 0], rfl, fits_fixed.2 rfl, fits_slack.2 rfl⟩
  | _ =>
    rw [show callTail (.invoke _) desc = [] from rfl, append_nil]
    exact encoded_index (.invoke _) rfl rfl hfits ⟨rfl, fun _ => rfl, by simp⟩

/-- **The pieces of a step encode the operands of the call.** -/
theorem encoded_pieces (hc : c.isStep = true) (hr : ¬ c.Refused) (hfits : ¬ c.Overflows a) (hnear : Near place (c.pieces a)) :
    c.Encoded a place (filled place (c.pieces a)) := by
  have hindex : c.index a ≤ 65535 := Nat.le_of_not_lt fun hn => hfits (.inl hn)
  cases c with
  | plain op =>
    obtain ⟨hdef, henc⟩ := not_or.1 hr
    exact encoded_fixed op .none (by simpa using hdef) (not_not.1 henc) trivial .nil ⟨rfl, rfl⟩
  | int op v =>
    simp only [Refused] at hr
    cases op with
    | bipush => exact encoded_fixed .bipush (.imm v) rfl rfl ⟨by simp at hr; omega, by simp at hr; omega⟩ (fits_fixed.2 rfl) ⟨rfl, rfl⟩
    | sipush => exact encoded_fixed .sipush (.imm v) rfl rfl ⟨by simp at hr; omega, by simp at hr; omega⟩ (fits_fixed.2 rfl) ⟨rfl, rfl⟩
    | newarray =>
      exact encoded_fixed .newarray (.imm v) rfl rfl (arrayTag_bounds (by simpa [Option.isSome_iff_ne_none] using hr)) (fits_fixed.2 rfl) ⟨rfl, rfl⟩
    | _ => simp at hr
  | localOp op n =>
    simp only [Overflows, not_or] at hfits
    obtain ⟨k, rfl⟩ := Int.eq_ofNat_of_zero_le (show 0 ≤ n by omega)
    have indexed (hdef : op.isDefined = true) (henc : op.encoding = .localIndex) (hwide : WideFits op (.localVar k)) :
        (localOp op k).Encoded a place (filled place ((localOp op k).pieces a)) := by
      rw [pieces, filled_bytes]
      split
      · exact encoded_wide op (.localVar k) hwide (fits_fixed.2 rfl) ⟨rfl, k, rfl, rfl⟩
      · exact encoded_fixed op (.localVar k) hdef henc (show k ≤ 255 by omega) (fits_fixed.2 rfl) ⟨rfl, k, rfl, rfl⟩
    cases op with
    | load l | store l | ret => exact indexed rfl rfl (show k ≤ 65535 by omega)
    | _ => exact absurd (by simp [Refused]) hr
  | iinc n d =>
    simp only [Overflows, not_or] at hfits
    obtain ⟨k, rfl⟩ := Int.eq_ofNat_of_zero_le (show 0 ≤ n by omega)
    rw [pieces, filled_bytes]
    split
    · exact encoded_wide .iinc (.increment k d) ⟨by omega, by omega, by omega⟩ (fits_fixed.2 rfl) ⟨rfl, k, rfl, rfl⟩
    · exact encoded_fixed .iinc (.increment k d) rfl rfl ⟨by omega, by omega, by omega⟩ (fits_fixed.2 rfl) ⟨rfl, k, rfl, rfl⟩
  | branch op l => exact encoded_branch hr hnear
  | tableSwitch low l ls => exact encoded_tableSwitch hr hfits hnear
  | invoke op owner name desc => exact encoded_invoke hr hfits
  | field op owner name desc =>
    cases op with
    | field f => exact encoded_index _ rfl rfl hfits ⟨rfl, rfl⟩
    | _ => exact absurd (by simp [Refused]) hr
  | classOp op name =>
    cases op with
    | new | anewarray | checkcast | instanceof => exact encoded_index _ rfl rfl hfits ⟨rfl, rfl⟩
    | _ => exact absurd (by simp [Refused]) hr
  | multiArray desc dims =>
    cases ht : FieldType.parse desc with
    | error e => exact absurd (by simp [Refused, ht]) hr
    | ok t =>
      have hdims : ¬ (dims < 1 ∨ (t.dims : Int) < dims ∨ 255 < dims) := fun h => hr fun t' ht' => by
        cases ht.symm.trans ht'
        exact h
      obtain ⟨k, rfl⟩ := Int.eq_ofNat_of_zero_le (show 0 ≤ dims by omega)
      rw [pieces, filled_bytes]
      exact encoded_fixed .multianewarray (.poolCount _ k) rfl rfl ⟨hindex, by omega⟩ (fits_fixed.2 rfl) ⟨rfl, k, rfl, rfl⟩
  | ldcInt | ldcFloat | ldcString =>
    rw [pieces, filled_bytes]
    split
    · exact encoded_fixed .ldc (.pool _) rfl rfl ‹_› (fits_fixed.2 rfl) ⟨.inl rfl, rfl⟩
    · exact encoded_index .ldcW rfl rfl hfits ⟨.inr rfl, rfl⟩
  | ldcLong | ldcDouble => exact encoded_index .ldc2W rfl rfl hfits ⟨rfl, rfl⟩
  | _ => cases hc

theorem base_of_mem {base : Nat} {isLong : Bool} (h : .jump base isLong l ∈ c.pieces a) : base = a.pos := by
  cases c with
  | tableSwitch low l' ls =>
    simp only [pieces, mem_append, mem_cons, not_mem_nil, reduceCtorEq, false_or, or_false, mem_map, Piece.jump.injEq] at h
    obtain ⟨h, -⟩ | ⟨-, -, h, -⟩ := h
    · exact h
    · exact h.symm
  | _ => simp_all [pieces]

/-- The operands can be read before the labels are placed, when every jump leads to its own instruction. -/
theorem encoded_blank (hc : c.isStep = true) (hr : ¬ c.Refused) (hfits : ¬ c.Overflows a) :
    c.Encoded a (fun _ => a.pos) (blank (c.pieces a)) := by
  have hblank : filled (fun _ => a.pos) (c.pieces a) = blank (c.pieces a) := by
    refine flatMap_congr fun p hp => ?_
    cases p with
    | bytes bs => rfl
    | jump base isLong l =>
      rw [base_of_mem hp, Piece.filled, Int.sub_self]
      rfl
  rw [← hblank]
  refine encoded_pieces hc hr hfits fun base isLong l hl => ?_
  rw [base_of_mem hl]
  omega

end Call

/-! ## What calls ask for -/

/-- The number of locals that an instruction of this opcode reads or writes, from its local variable on. -/
def Opcode.localSlots? : Opcode → Option Nat
  | .load l | .loadAt l _ | .store l | .storeAt l _ => some (if l.isWide then 2 else 1)
  | .iinc | .ret => some 1
  | _ => none

/-- The locals of an instruction lie below a bound. -/
def Instruction.LocalsBelow (i : Instruction) (n : Int) : Prop :=
  ∀ s, i.op.localSlots? = some s → (i.localIndex : Int) + s ≤ n

/-- An instruction is lifted to the constant `v`. -/
def Instruction.Pushes (pool : ConstantPool) (v : Int) (i : Instruction) : Prop :=
  ∀ cx : Lift.Context, cx.method.pool = pool → cx.lift i = cx.pushInt (Int64.ofInt v)

/-- A constant has an index in the pool of an assembler, and the index leads to it. -/
def Assembler.Names (z : Assembler) (key : InternKey) (n : Nat) : Prop :=
  z.interned[key]? = some n ∧ ∃ c, z.pool.entry n = .ok c ∧ c.internKey? = some key

/-- A switch to labels. -/
def Instruction.Switches (z : Assembler) (fallback : Text) (keys : List Int) (labels : List Text) (i : Instruction) : Prop :=
  ∃ t, i.operand = .switch t ∧ t.keys = keys ∧
    List.Forall₂ (fun l x => ∃ p : Nat, z.labels[l]? = some p ∧ x = (p : Int)) (fallback :: labels) t.targets

/-- An instruction that loads a constant of one word. -/
def Instruction.Loads (z : Assembler) (key : InternKey) (i : Instruction) : Prop :=
  (i.op = .ldc ∨ i.op = .ldcW) ∧ ∃ n, z.Names key n ∧ i.operand = .pool n

/-- The instruction that a call on `a` asks for, where `z` is the assembler in the end. -/
def Call.Asks (a z : Assembler) (i : Instruction) : Call → Prop
  | .plain op => i.op = op ∧ i.operand = .none
  | .int op v => i.op = op ∧ i.operand = .imm v
  | .pushInt v => i.Pushes z.pool v
  | .localOp op n => i.op = op ∧ i.operand = .localVar n.toNat
  | .iinc n d => i.op = .iinc ∧ i.operand = .increment n.toNat d
  | .branch op l => i.op = op ∧ ∃ p : Nat, z.labels[l]? = some p ∧ i.operand = .branch p
  | .tableSwitch low l ls => i.op = .tableswitch ∧ i.Switches z l ((List.range ls.length).map fun n : Nat => low + n) ls
  | .lookupSwitch l keys ls => i.op = .lookupswitch ∧ i.Switches z l keys ls
  | .invoke op owner name desc => i.op = op ∧ ∃ n, z.Names (.method (methodKey owner name desc)) n ∧
      if op = .invoke .interface then ∃ t, MethodType.parse desc = .ok t ∧ i.operand = .poolCount n (t.argSlots + 1)
      else i.operand = .pool n
  | .field op owner name _ => i.op = op ∧
      ∃ n, z.Names (.field (fieldKey (a.fieldOwner owner name) name)) n ∧ i.operand = .pool n
  | .classOp op name => i.op = op ∧ ∃ n, z.Names (.cls name) n ∧ i.operand = .pool n
  | .multiArray desc dims => i.op = .multianewarray ∧ ∃ n, z.Names (.cls desc) n ∧ i.operand = .poolCount n dims.toNat
  | .ldcInt v => i.Loads z (.int v)
  | .ldcFloat v => i.Loads z (.float v.toSingleBits)
  | .ldcString t => i.Loads z (.string t)
  | .ldcLong v => i.op = .ldc2W ∧ ∃ n, z.Names (.long v) n ∧ i.operand = .pool n
  | .ldcDouble v => i.op = .ldc2W ∧ ∃ n, z.Names (.double v.bits) n ∧ i.operand = .pool n
  | .label _ | .guardRange _ | .declareClass _ | .locals _ | .stack _ => False

namespace Assembler

variable {place : Text → Nat}

/-- What the assembler in the end is to one before: constants keep their indices, and code and pool are small enough. -/
structure Ends (b z : Assembler) : Prop where
  interned : ∀ (key : InternKey) (n : Nat), b.interned[key]? = some n → z.interned[key]? = some n
  sound : z.Sound
  pool : z.pool.entries.size ≤ 65535
  code : b.pos ≤ z.pos ∧ z.pos < 2147483648
  labels : ∀ (l : Text) (p : Nat), z.labels[l]? = some p → p ≤ z.pos

/-- Bytes encode the instruction that a call asks for. -/
structure Encodes (a b z : Assembler) (c : Call) (bs : List UInt8) (i : Instruction) : Prop where
  bci : i.bci = a.pos
  encodable : i.Encodable
  fits : Fits i.layout bs
  asks : c.Asks a z i
  locals : i.LocalsBelow b.maxLocals

/-- A call writes the instruction that it asks for. -/
def Writes (c : Call) (a b : Assembler) : Prop :=
  ∃ ps, Adds a b ps ∧ ∀ z place, b.Ends z → z.Resolved place ps → ∃ i, Encodes a b z c (filled place ps) i

variable {a b z : Assembler} {op : Opcode}

theorem Ends.names {key : InternKey} {n : Nat} (h : b.Ends z) (hn : b.interned[key]? = some n) : z.Names key n ∧ n ≤ 65535 := by
  have hz := h.interned key n hn
  obtain ⟨c, hc, hkey⟩ := h.sound.interned key n hz
  have hpool := h.pool
  have hlt := (lt_of_entry hc).2
  exact ⟨⟨hz, c, hc, hkey⟩, by omega⟩

theorem error_fail (a : Assembler) (e : AssemblyError) : (a.fail e).error ≠ none := by
  unfold fail
  cases a.error <;> nofun

theorem internKey_int (h0 : -9223372036854775808 ≤ v) (h1 : v ≤ 9223372036854775807) : (Int64.ofInt v).toInt = v :=
  Int64.toInt_ofInt_of_le h0 (by omega)

theorem resolved_append {ps qs : List Piece} (h : z.Resolved place (ps ++ qs)) : z.Resolved place ps ∧ z.Resolved place qs :=
  ⟨fun base isLong l hl => h base isLong l (mem_append_left _ hl), fun base isLong l hl => h base isLong l (mem_append_right _ hl)⟩

theorem far_enough (h : b.Ends z) (hpos : a.pos ≤ b.pos) (hl : z.labels[l]? = some (place l)) :
    -2147483648 ≤ (place l : Int) - a.pos ∧ (place l : Int) - a.pos ≤ 2147483647 := by
  have := h.labels l _ hl
  have := h.code
  omega

theorem forall₂_labels {ls : List Text} (h : ∀ l ∈ ls, z.labels[l]? = some (place l)) :
    Forall₂ (fun l x => ∃ p : Nat, z.labels[l]? = some p ∧ x = (p : Int)) ls (ls.map fun l => (place l : Int)) := by
  rw [forall₂_map_right_iff, forall₂_same]
  exact fun l hl => ⟨place l, h l hl, rfl⟩

theorem le_slots {n : Int} (h0 : 0 ≤ n) (h1 : n ≤ 65535) (isWide : Bool) : n + (if isWide then 2 else 1 : Nat) ≤ slots n isWide := by
  unfold slots
  rw [Int64.toInt_ofInt_of_le (by cases isWide <;> simp <;> omega) (by cases isWide <;> simp <;> omega)]
  cases isWide <;> simp

theorem localsBelow_of_none {i : Instruction} (h : i.op.localSlots? = none) (n : Int) : i.LocalsBelow n := by
  intro s hs
  rw [h] at hs
  cases hs

end Assembler

namespace Call

variable {a z : Assembler} {c : Call} {place : Text → Nat} {i : Instruction}

theorem keyed_wanted (hfits : c.Fits) : (c.wanted a).Keyed := by
  cases c with
  | ldcInt v | pushInt v =>
    have := hfits.1
    have := hfits.2
    exact congrArg (some ∘ InternKey.int) (internKey_int (by omega) (by omega))
  | ldcLong v => exact congrArg (some ∘ InternKey.long) (internKey_int hfits.1 hfits.2)
  | classOp | multiArray => trivial
  | invoke | field | ldcFloat | ldcDouble | ldcString => rfl
  | _ => trivial

/-- An instruction with the operands of a call is the one that the call asks for. -/
theorem Holds.asks (h : c.Holds a place i) (hnames : ∀ key, (c.wanted a).key? = some key → z.Names key (c.index a))
    (hlabels : ∀ base isLong l, .jump base isLong l ∈ c.pieces a → z.labels[l]? = some (place l)) : c.Asks a z i := by
  cases c with
  | plain | int => exact h
  | localOp op n | iinc n d =>
    obtain ⟨hop, k, rfl, ho⟩ := h
    exact ⟨hop, ho⟩
  | branch op l => exact ⟨h.1, place l, hlabels _ _ l (mem_cons_of_mem _ mem_cons_self), h.2⟩
  | tableSwitch low l ls =>
    obtain ⟨hop, t, ho, hkeys, htargets⟩ := h
    refine ⟨hop, t, ho, hkeys, htargets ▸ forall₂_labels fun l' hl' => hlabels a.pos true l' ?_⟩
    rcases mem_cons.1 hl' with rfl | hl' <;> simp [pieces, *]
  | invoke op owner name desc =>
    refine ⟨h.1, _, hnames _ rfl, ?_⟩
    split
    · exact h.2.2 ‹_›
    · exact h.2.1 ‹_›
  | field | classOp | ldcInt | ldcFloat | ldcString | ldcLong | ldcDouble => exact ⟨h.1, _, hnames _ rfl, h.2⟩
  | multiArray desc dims =>
    obtain ⟨hop, k, rfl, ho⟩ := h
    exact ⟨hop, _, hnames _ rfl, ho⟩
  | _ => exact h.elim

/-- There is room for the local variables of an instruction with the operands of a call. -/
theorem Holds.locals (h : c.Holds a place i) (hr : ¬ c.Refused) (hfits : ¬ c.Overflows a) {m : Int} (hm : ∀ n, c.room = some n → n ≤ m) :
    i.LocalsBelow m := by
  intro s hs
  have below (k : Nat) (isWide : Bool) (hk : k ≤ 65535) (hindex : i.localIndex = k) (hs : s = if isWide then 2 else 1)
      (hroom : c.room = some (slots k isWide)) : (i.localIndex : Int) + s ≤ m := by
    rw [hindex, hs]
    exact Int.le_trans (le_slots (by omega) (by omega) isWide) (hm _ hroom)
  cases c with
  | plain op =>
    obtain ⟨hop, -⟩ := h
    rw [hop] at hs
    cases op with
    | loadAt l n | storeAt l n =>
      cases hs
      exact below n.val l.isWide (by omega) (by simp [Instruction.localIndex, hop]) rfl rfl
    | load | store | iinc | ret => exact absurd (.inr nofun) hr
    | _ => cases hs
  | localOp op n =>
    obtain ⟨hop, k, rfl, ho⟩ := h
    simp only [Overflows, not_or] at hfits
    rw [hop] at hs
    cases op with
    | load l | store l =>
      cases hs
      exact below k l.isWide (by omega) (by simp [Instruction.localIndex, hop, ho]) rfl rfl
    | ret =>
      cases hs
      exact below k false (by omega) (by simp [Instruction.localIndex, hop, ho]) rfl rfl
    | loadAt | storeAt | iinc => exact absurd ⟨fun l => ⟨nofun, nofun⟩, nofun⟩ hr
    | _ => cases hs
  | iinc n d =>
    obtain ⟨hop, k, rfl, ho⟩ := h
    simp only [Overflows, not_or] at hfits
    rw [hop] at hs
    cases hs
    exact below k false (by omega) (by simp [Instruction.localIndex, hop, ho]) rfl rfl
  | int op | branch op | invoke op | field op | classOp op =>
    -- the opcodes with local variables are refused
    rw [h.1] at hs
    cases op <;> first | (cases hs; done) | simp [Refused, Opcode.encoding] at hr
  | tableSwitch | multiArray | ldcLong | ldcDouble =>
    rw [h.1] at hs
    cases hs
  | ldcInt | ldcFloat | ldcString =>
    rcases h.1 with hop | hop <;> (rw [hop] at hs; cases hs)
  | _ => exact h.elim

theorem not_overflows (hfits : c.Fits) (hindex : c.index a ≤ 65535) : ¬ c.Overflows a := by
  rintro (hn | hn)
  · omega
  cases c with
  | localOp | iinc | tableSwitch =>
    simp only [Fits] at hfits
    omega
  | invoke op owner name desc =>
    obtain ⟨hop, t, ht, hslots⟩ := hn
    have := hfits hop t ht
    omega
  | _ => exact hn

end Call

namespace Assembler

variable {a b z : Assembler} {c : Call} {op : Opcode}

/-- A step writes the instruction that it asks for. -/
theorem writes_step (hc : c.isStep = true) (hfits : c.Fits) (h : (c.apply a).error = none) : Writes c a (c.apply a) := by
  have hr : ¬ c.Refused := fun hr => by
    obtain ⟨e, he⟩ := apply_refused (a := a) hc hr
    exact error_fail a e (he ▸ h)
  rw [apply_accepted hc hr]
  obtain ⟨hadds, hkey, hroom⟩ := adds_act a c.room (c.pieces a) (keyed_wanted hfits)
  refine ⟨_, hadds, fun z place hz hres => ?_⟩
  have hnames (key : InternKey) (hw : (c.wanted a).key? = some key) : z.Names key (c.index a) ∧ c.index a ≤ 65535 := hz.names (hkey key hw)
  have hindex : c.index a ≤ 65535 := by
    cases hw : c.wanted a with
    | nothing =>
      rw [index, hw]
      exact Nat.zero_le _
    | constant key k => exact (hnames key (by rw [hw]; rfl)).2
    | cls name => exact (hnames (.cls name) (by rw [hw]; rfl)).2
  have hover := not_overflows hfits hindex
  have hnear : Near place (c.pieces a) := by
    intro base isLong l hl
    obtain ⟨hlabel, hshort⟩ := hres base isLong l hl
    obtain rfl := base_of_mem hl
    obtain ⟨hlo, hhi⟩ := far_enough hz hadds.pos_le hlabel
    exact ⟨hlo, hhi, hshort⟩
  obtain ⟨i, hbci, henc, hbs, hi⟩ := encoded_pieces hc hr hover hnear
  exact ⟨i, hbci, henc, hbs, hi.asks (fun key hw => (hnames key hw).1) fun base isLong l hl => (hres base isLong l hl).1,
    hi.locals hr hover hroom⟩

/-- A switch from its opcode, padding and table. -/
theorem encodes_switch {t : SwitchTable} {bs : List UInt8} (ht : TableFits a.pos op t)
    (hbs : bs = op.byte :: (List.replicate (padding a.pos) 0 ++ (t.numbers a.pos op).flatMap bytes4))
    (hasks : c.Asks a z (switchAt a.pos op t)) : Encodes a b z c bs (switchAt a.pos op t) where
  bci := rfl
  encodable := .switch ht
  fits := by
    rw [layout_switchAt, hbs, fits_cons, fits_append]
    exact ⟨rfl, _, _, rfl, fits_slack.2 (length_replicate), fits_fixed.2 rfl⟩
  asks := hasks
  locals := by
    refine localsBelow_of_none ?_ _
    rcases isSwitch_cases ht.switch with rfl | rfl <;> rfl

theorem adds_switch (a : Assembler) (op : Opcode) (l : Text) :
    Adds a (((a.emit [op.byte]).pad).reference a.pos true l)
      [.bytes [op.byte], .bytes (List.replicate (padding a.pos) 0), .jump a.pos true l] := by
  have hpad : Adds (a.emit [op.byte]) (a.emit [op.byte]).pad [.bytes (List.replicate (padding a.pos) 0)] := by
    unfold pad
    rw [(a.adds_emit [op.byte]).pos]
    exact adds_emit _ _
  exact (a.adds_emit [op.byte]).trans (hpad.trans (adds_reference _ _ _ _))

/-- The arms of a `lookupswitch` have ascending keys. -/
theorem adds_lookupArms {base : Nat} {previous : Option Int} {arms : List (Int × Text)} (h : (lookupArms base a previous arms).error = none) :
    Adds a (lookupArms base a previous arms) (arms.flatMap fun (k, l) => [.bytes (bytes4 k), .jump base true l]) ∧
      (arms.map (·.1)).IsChain (· < ·) ∧ ∀ k ∈ previous, ∀ k' ∈ (arms.map (·.1)).head?, k < k' := by
  induction arms generalizing a previous with
  | nil => exact ⟨.refl a, .nil, by simp⟩
  | cons arm arms ih =>
    obtain ⟨k, l⟩ := arm
    rw [lookupArms] at h ⊢
    split at h
    · exact absurd h (error_fail _ _)
    rename_i hprevious
    rw [if_neg hprevious]
    obtain ⟨hadds, hchain, hfirst⟩ := ih h
    refine ⟨((adds_emit _ _).trans (adds_reference _ _ _ _)).trans hadds, ?_, ?_⟩
    · rw [map_cons, isChain_cons]
      exact ⟨hfirst k rfl, hchain⟩
    rintro p hp k' hk'
    cases hk'
    rw [Option.mem_def] at hp
    rw [hp] at hprevious
    simpa using hprevious

theorem length_arms (base : Nat) (arms : List (Int × Text)) :
    (blank (arms.flatMap fun (k, l) => [.bytes (bytes4 k), .jump base true l])).length = 8 * arms.length := by
  induction arms with
  | nil => rfl
  | cons arm arms ih =>
    rw [flatMap_cons, blank_append, length_append, ih, length_cons]
    change 8 + _ = _
    omega

theorem writes_lookupSwitch {keys : List Int} {ls : List Text} (hfits : (Call.lookupSwitch l keys ls).Fits)
    (h : (a.lookupSwitch l keys ls).error = none) : Writes (.lookupSwitch l keys ls) a (a.lookupSwitch l keys ls) := by
  unfold lookupSwitch at h ⊢
  split at h
  · exact absurd h (error_fail _ _)
  rename_i hlen
  rw [if_neg hlen]
  rw [ne_eq, not_not] at hlen
  obtain ⟨harms, hchain, -⟩ := adds_lookupArms h
  have hadds := ((a.adds_switch .lookupswitch l).trans (adds_emit _ (bytes4 keys.length))).trans harms
  refine ⟨_, hadds, fun z place hz hres => ?_⟩
  have hkeys : (keys.zip ls).map (·.1) = keys := map_fst_zip (Nat.le_of_eq hlen)
  have hlabels : (keys.zip ls).map (·.2) = ls := map_snd_zip (Nat.le_of_eq hlen.symm)
  have hjump : ∀ l' ∈ l :: ls, z.labels[l']? = some (place l') := by
    intro l' hl'
    refine (hres a.pos true l' ?_).1
    rcases mem_cons.1 hl' with rfl | hl'
    · simp
    · rw [← hlabels] at hl'
      obtain ⟨arm, harm, rfl⟩ := mem_map.1 hl'
      exact mem_append_right _ (mem_flatMap.2 ⟨arm, harm, by simp⟩)
  have hfar : ∀ l' ∈ l :: ls, _ := fun l' hl' => far_enough hz hadds.pos_le (hjump l' hl')
  rw [hkeys] at hchain
  have hcount : (keys.zip ls).length = keys.length := by rw [length_zip, hlen, Nat.min_self]
  refine ⟨switchAt a.pos .lookupswitch ⟨place l, (keys.zip ls).map fun (k, l) => (k, (place l : Int))⟩,
    encodes_switch ⟨rfl, ?_, ?_, nofun⟩ ?_ ⟨rfl, _, rfl, ?_, ?_⟩⟩
  · rw [SwitchTable.numbers, if_neg nofun]
    simp only [mem_append, mem_cons, not_mem_nil, or_false, mem_flatMap, mem_map, length_map]
    rintro w ((rfl | rfl) | ⟨_, ⟨⟨k, l'⟩, harm, rfl⟩, rfl | rfl⟩)
    · exact hfar l mem_cons_self
    · have hpos := hadds.pos
      rw [blank_append, length_append, length_arms, hcount] at hpos
      have hend : (lookupArms _ _ _ _).pos ≤ _ ∧ _ := hz.code
      omega
    · exact hfits _ (of_mem_zip harm).1
    · exact hfar l' (mem_cons_of_mem l (of_mem_zip harm).2)
  · rw [SwitchTable.keys, map_map]
    exact hkeys.symm ▸ isChain_iff_pairwise.1 hchain
  · rw [SwitchTable.numbers, if_neg nofun]
    simp [filled, Piece.filled, flatMap_map, flatMap_assoc, hcount]
  · rw [SwitchTable.keys, map_map]
    exact hkeys
  · have htargets : (keys.zip ls).map (fun arm => (place arm.2 : Int)) = ls.map fun l => (place l : Int) := by
      nth_rewrite 2 [← hlabels]
      rw [map_map]
      rfl
    rw [SwitchTable.targets, map_map]
    exact htargets.symm ▸ forall₂_labels hjump

theorem pushes_of_loads {i : Instruction} (h : i.Loads z (.int v)) : i.Pushes z.pool v := by
  obtain ⟨hop, n, ⟨-, c, hc, hkey⟩, ho⟩ := h
  intro cx hpool
  have hlift : cx.lift i = cx.liftConstant i := by
    unfold Lift.Context.lift
    rcases hop with hop | hop <;> rw [hop]
  have hwide : (i.op == .ldc2W) = false := by rcases hop with hop | hop <;> rw [hop] <;> rfl
  have hindex : i.poolIndex = n := by rw [Instruction.poolIndex, ho]
  rw [hlift, Lift.Context.liftConstant, hpool, hindex, hc]
  rw [hwide]
  cases c <;> simp only [Constant.internKey?, Option.some.injEq, reduceCtorEq, InternKey.int.injEq] at hkey
  rw [← hkey, Int64.ofInt_toInt]

theorem writes_pushInt (hv : (Call.pushInt v).Fits) (h : ((Call.pushInt v).apply a).error = none) :
    Writes (.pushInt v) a ((Call.pushInt v).apply a) := by
  have weaken {c : Call} (hv : Call.shortest v = c) (hc : c.isStep = true) (hfits : c.Fits) (hasks : ∀ z i, c.Asks a z i → i.Pushes z.pool v) :
      Writes (.pushInt v) a ((Call.pushInt v).apply a) := by
    rw [Call.apply_pushInt, hv] at h ⊢
    obtain ⟨ps, hadds, henc⟩ := writes_step hc hfits h
    refine ⟨ps, hadds, fun z place hz hres => ?_⟩
    obtain ⟨i, hi⟩ := henc z place hz hres
    exact ⟨i, hi.bci, hi.encodable, hi.fits, hasks z i hi.asks, hi.locals⟩
  have himm {op : Opcode} (hop : op = .bipush ∨ op = .sipush) : ∀ z i, (Call.int op v).Asks a z i → i.Pushes z.pool v := by
    rintro z i ⟨hi, ho⟩ cx -
    unfold Lift.Context.lift
    rcases hop with rfl | rfl <;> rw [hi] <;> dsimp only <;> rw [Instruction.immediate, ho]
  obtain ⟨op, hop, heq⟩ | heq | heq | heq := shortest_cases v
  · refine weaken heq rfl trivial ?_
    rintro z i ⟨hi, -⟩ cx -
    unfold smallInt? at hop
    split at hop
    · rename_i hsmall
      cases hop
      unfold Lift.Context.lift
      rw [hi]
      dsimp only
      rw [show (((v + 1).toNat : Int) - 1) = v by omega]
    · cases hop
  · exact weaken heq rfl trivial (himm (.inl rfl))
  · exact weaken heq rfl trivial (himm (.inr rfl))
  · exact weaken heq rfl hv fun z i hi => pushes_of_loads hi

/-- **Every call that writes an instruction writes the one that it asks for.** -/
theorem writes_apply (hfits : c.Fits) (hemits : c.emits = true) (h : (c.apply a).error = none) : Writes c a (c.apply a) := by
  cases c with
  | pushInt v => exact writes_pushInt hfits h
  | lookupSwitch l keys ls => exact writes_lookupSwitch hfits h
  | label | guardRange | declareClass | locals | stack => cases hemits
  | _ => exact writes_step rfl hfits h

end Assembler
end Bytelift
