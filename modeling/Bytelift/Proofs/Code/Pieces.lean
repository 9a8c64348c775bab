import Bytelift.Proofs.Code.Calls
import Bytelift.Proofs.Traversals

/-!
# The code of an assembler, piece by piece

While a method is assembled the positions of its labels are not known, so its code is a list of pieces: bytes, and jumps to labels
that are left blank. A call of the assembler adds pieces (`Adds`), and each of its steps has one lemma that says which. When the
method is built the blanks are filled in.

Results:
* `Assembler.fill`: filling in the labels gives the pieces with the positions of the labels;
* `Assembler.adds_intern`, `Assembler.adds_classIndex`: the index of a constant leads to it.
-/

namespace Bytelift

open List ConstantPool
open Assembler (bytes2 bytes4)

namespace Piece

/-- A piece as it is written at first. -/
def blank : Piece → List UInt8
  | .bytes bs => bs
  | .jump _ isLong _ => if isLong then bytes4 0 else bytes2 0

/-- A piece with the positions of the labels filled in. -/
def filled (place : Text → Nat) : Piece → List UInt8
  | .bytes bs => bs
  | .jump base isLong l => if isLong then bytes4 (place l - base) else bytes2 (place l - base)

/-- What has to be filled in later. -/
def fixups (offset : Nat) : Piece → List Fixup
  | .bytes _ => []
  | .jump base isLong l => [⟨offset, base, isLong, l⟩]

theorem length_filled (place : Text → Nat) (p : Piece) : (p.filled place).length = p.blank.length := by
  cases p with
  | bytes bs => rfl
  | jump base isLong l => cases isLong <;> rfl

end Piece

/-- Pieces as they are written at first. -/
def blank (ps : List Piece) : List UInt8 := ps.flatMap Piece.blank

/-- Pieces with the positions of the labels filled in. -/
def filled (place : Text → Nat) (ps : List Piece) : List UInt8 := ps.flatMap (Piece.filled place)

/-- What has to be filled in later, in code that starts at an offset. -/
def fixupsFrom : Nat → List Piece → List Fixup
  | _, [] => []
  | offset, p :: ps => p.fixups offset ++ fixupsFrom (offset + p.blank.length) ps

@[simp] theorem blank_append (ps qs : List Piece) : blank (ps ++ qs) = blank ps ++ blank qs := flatMap_append

@[simp] theorem filled_append (place : Text → Nat) (ps qs : List Piece) : filled place (ps ++ qs) = filled place ps ++ filled place qs :=
  flatMap_append

theorem fixupsFrom_append (offset : Nat) (ps qs : List Piece) :
    fixupsFrom offset (ps ++ qs) = fixupsFrom offset ps ++ fixupsFrom (offset + (blank ps).length) qs := by
  induction ps generalizing offset with
  | nil => rfl
  | cons p ps ih =>
    rw [cons_append, fixupsFrom, fixupsFrom, ih, append_assoc]
    simp [blank, Nat.add_assoc]

theorem length_filled (place : Text → Nat) (ps : List Piece) : (filled place ps).length = (blank ps).length := by
  induction ps with
  | nil => rfl
  | cons p ps ih =>
    simp only [filled, blank, flatMap_cons, length_append, Piece.length_filled] at ih ⊢
    rw [ih]

namespace Assembler

/-- Bytes are overwritten in place. -/
theorem toList_patch (code : Array UInt8) (pre old post new : List UInt8) (hcode : code.toList = pre ++ old ++ post)
    (hlen : new.length = old.length) : (patch code pre.length new).toList = pre ++ new ++ post := by
  induction new generalizing code pre old with
  | nil =>
    obtain rfl := length_eq_zero_iff.1 hlen.symm
    exact hcode
  | cons b new ih =>
    cases old with
    | nil => cases hlen
    | cons o old =>
      have hset : (code.setIfInBounds pre.length b).toList = (pre ++ [b]) ++ old ++ post := by
        rw [Array.toList_setIfInBounds, hcode]
        simp
      have := ih _ (pre ++ [b]) old hset (by simpa using hlen)
      rw [patch]
      simpa using this

/-- The labels that pieces name have positions, near enough for the jumps. -/
def Resolved (a : Assembler) (place : Text → Nat) (ps : List Piece) : Prop :=
  ∀ (base : Nat) (isLong : Bool) (l : Text), .jump base isLong l ∈ ps → a.labels[l]? = some (place l) ∧
    (isLong = false → -32768 ≤ (place l : Int) - base ∧ (place l : Int) - base ≤ 32767)

theorem resolve_eq_ok {a : Assembler} {l : Text} {p : Nat} : a.resolve l = .ok p ↔ a.labels[l]? = some p := by
  unfold resolve
  cases a.labels[l]? <;> simp

/-- Filling in one label replaces blank bytes. -/
theorem applyFixup_jump {a : Assembler} {place : Text → Nat} (hplace : ∀ l p, a.labels[l]? = some p → place l = p) {base : Nat}
    {isLong : Bool} {l : Text} {done rest : List UInt8} {code code' : Array UInt8}
    (hcode : code.toList = done ++ (Piece.jump base isLong l).blank ++ rest)
    (h : a.applyFixup code ⟨done.length, base, isLong, l⟩ = .ok code') :
    code'.toList = done ++ (Piece.jump base isLong l).filled place ++ rest ∧ a.Resolved place [.jump base isLong l] := by
  obtain ⟨p, hp, h⟩ := exists_of_bind_ok h
  rw [resolve_eq_ok] at hp
  obtain rfl := hplace l p hp
  have hres (hshort : isLong = false → -32768 ≤ (place l : Int) - base ∧ (place l : Int) - base ≤ 32767) :
      a.Resolved place [.jump base isLong l] := by
    intro base' isLong' l' hl
    cases mem_singleton.1 hl
    exact ⟨hp, hshort⟩
  cases isLong with
  | true =>
    cases h
    exact ⟨toList_patch code done _ rest _ hcode rfl, hres nofun⟩
  | false =>
    simp only [Bool.false_eq_true, if_false] at h
    split at h
    · cases h
    rename_i hnear
    cases h
    exact ⟨toList_patch code done _ rest _ hcode rfl, hres fun _ => by omega⟩

/-- **Filling in the labels.** -/
theorem fill {a : Assembler} (place : Text → Nat) (hplace : ∀ l p, a.labels[l]? = some p → place l = p) (ps : List Piece)
    (done : List UInt8) (code code' : Array UInt8) (hcode : code.toList = done ++ blank ps)
    (h : (fixupsFrom done.length ps).foldlM a.applyFixup code = .ok code') :
    code'.toList = done ++ filled place ps ∧ a.Resolved place ps := by
  induction ps generalizing done code with
  | nil =>
    cases h
    exact ⟨hcode, nofun⟩
  | cons p ps ih =>
    cases p with
    | bytes bs =>
      obtain ⟨hfilled, hres⟩ := ih (done ++ bs) code (by simpa [blank, Piece.blank] using hcode)
        (by simpa [fixupsFrom, Piece.fixups, Piece.blank] using h)
      refine ⟨by simpa [filled, Piece.filled] using hfilled, fun base isLong l hl => ?_⟩
      rcases mem_cons.1 hl with hl | hl
      · cases hl
      · exact hres base isLong l hl
    | jump base isLong l =>
      rw [fixupsFrom, Piece.fixups, singleton_append, foldlM_cons] at h
      obtain ⟨code1, hfix, h⟩ := exists_of_bind_ok h
      obtain ⟨hcode1, hjump⟩ := applyFixup_jump hplace
        (show _ = done ++ (Piece.jump base isLong l).blank ++ blank ps by simpa [blank] using hcode) hfix
      obtain ⟨hfilled, hres⟩ := ih (done ++ (Piece.jump base isLong l).filled place) code1 hcode1
        (by rwa [length_append, Piece.length_filled])
      refine ⟨by simpa [filled] using hfilled, fun base' isLong' l' hl => ?_⟩
      rcases mem_cons.1 hl with hl | hl
      · exact hjump base' isLong' l' (mem_singleton.2 hl)
      · exact hres base' isLong' l' hl

end Assembler

/-! ## Constants -/

/-- What a constant is told apart by. -/
def Constant.internKey? : Constant → Option InternKey
  | .invalid => none
  | .int v => some (.int v.toInt)
  | .long v => some (.long v.toInt)
  | .float v => some (.float v.toSingleBits)
  | .double v => some (.double v.bits)
  | .string t => some (.string t)
  | .cls c => some (.cls c.name)
  | .method m => some (.method m.key)
  | .field f => some (.field f.key)

namespace Wanted

/-- What the constant that is wanted is told apart by. -/
def key? : Wanted → Option InternKey
  | .nothing => none
  | .constant key _ => some key
  | .cls name => some (.cls name)

/-- A constant is wanted under its own key. -/
def Keyed : Wanted → Prop
  | .constant key c => c.internKey? = some key
  | _ => True

end Wanted

namespace Assembler

variable {a b c : Assembler} {ps qs : List Piece}

/-- The index of a constant leads to it, and classes are filed under their names. -/
structure Sound (a : Assembler) : Prop where
  interned : ∀ (key : InternKey) (n : Nat), a.interned[key]? = some n → ∃ c, a.pool.entry n = .ok c ∧ c.internKey? = some key
  classes : ∀ (name : Text) (c : ClassRef), a.classes[name]? = some c → c.name = name

/-- A call writes pieces, and what else there is stays. -/
structure Grows (a b : Assembler) (ps : List Piece) : Prop where
  code : b.code.toList = a.code.toList ++ blank ps
  fixups : b.fixups.toList = a.fixups.toList ++ fixupsFrom a.pos ps
  error : b.error = none → a.error = none
  locals : a.maxLocals ≤ b.maxLocals
  interned : ∀ (key : InternKey) (n : Nat), a.interned[key]? = some n → b.interned[key]? = some n
  sound : a.Sound → b.Sound

/-- A call writes pieces and places no label. -/
structure Adds (a b : Assembler) (ps : List Piece) : Prop extends Grows a b ps where
  labels : b.labels = a.labels

theorem length_code (a : Assembler) : a.code.toList.length = a.pos := Array.length_toList

namespace Grows

theorem pos (h : Grows a b ps) : b.pos = a.pos + (blank ps).length := by
  rw [← length_code, ← length_code, h.code, length_append]

theorem pos_le (h : Grows a b ps) : a.pos ≤ b.pos := by
  rw [h.pos]
  exact Nat.le_add_right _ _

theorem trans (h : Grows a b ps) (h' : Grows b c qs) : Grows a c (ps ++ qs) where
  code := by rw [h'.code, h.code, blank_append, append_assoc]
  fixups := by rw [h'.fixups, h.fixups, h.pos, fixupsFrom_append, append_assoc]
  error hc := h.error (h'.error hc)
  locals := Int.le_trans h.locals h'.locals
  interned key n hn := h'.interned key n (h.interned key n hn)
  sound ha := h'.sound (h.sound ha)

theorem of_eq (hcode : b.code = a.code) (hfixups : b.fixups = a.fixups) (herror : b.error = none → a.error = none)
    (hlocals : a.maxLocals ≤ b.maxLocals)
    (hinterned : ∀ (key : InternKey) (n : Nat), a.interned[key]? = some n → b.interned[key]? = some n)
    (hsound : a.Sound → b.Sound) : Grows a b [] where
  code := by rw [hcode, blank, flatMap_nil, append_nil]
  fixups := by rw [hfixups, fixupsFrom, append_nil]
  error := herror
  locals := hlocals
  interned := hinterned
  sound := hsound

end Grows

theorem Adds.trans (h : Adds a b ps) (h' : Adds b c qs) : Adds a c (ps ++ qs) :=
  ⟨h.toGrows.trans h'.toGrows, h'.labels.trans h.labels⟩

theorem Adds.refl (a : Assembler) : Adds a a [] :=
  ⟨.of_eq rfl rfl id (Int.le_refl _) (fun _ _ => id) id, rfl⟩

theorem adds_locals (a : Assembler) (n : Int) : Adds a (a.locals n) [] :=
  ⟨.of_eq rfl rfl id (Int.le_max_left _ _) (fun _ _ => id) fun h => ⟨h.interned, h.classes⟩, rfl⟩

theorem adds_emit (a : Assembler) (bs : List UInt8) : Adds a (a.emit bs) [.bytes bs] where
  code := by simp [emit, blank, Piece.blank]
  fixups := by simp [emit, fixupsFrom, Piece.fixups]
  labels := rfl
  error := id
  locals := Int.le_refl _
  interned _ _ := id
  sound h := ⟨h.interned, h.classes⟩

theorem adds_reference (a : Assembler) (base : Nat) (isLong : Bool) (l : Text) :
    Adds a (a.reference base isLong l) [.jump base isLong l] where
  code := by cases isLong <;> simp [reference, emit2, emit4, emit, blank, Piece.blank]
  fixups := by cases isLong <;> simp [reference, emit2, emit4, emit, fixupsFrom, Piece.fixups]
  labels := by cases isLong <;> rfl
  error := by cases isLong <;> exact id
  locals := by cases isLong <;> exact Int.le_refl _
  interned _ _ h := by cases isLong <;> exact h
  sound h := by cases isLong <;> exact ⟨h.interned, h.classes⟩

theorem insert_keeps {α β : Type} [BEq α] [LawfulBEq α] [Hashable α] {m : Std.HashMap α β} {k k' : α} {x y : β} (hnew : m[k]? = none)
    (h : m[k']? = some x) : (m.insert k y)[k']? = some x := by
  rw [Std.HashMap.getElem?_insert, if_neg ?_]
  · exact h
  · intro heq
    rw [beq_iff_eq.1 heq, h] at hnew
    cases hnew

theorem lt_of_entry {p : ConstantPool} {n : Int} {c : Constant} (h : p.entry n = .ok c) : 1 ≤ n ∧ (n - 1).toNat < p.entries.size := by
  unfold entry at h
  split at h
  · cases h
  refine ⟨by omega, ?_⟩
  by_contra hge
  rw [Array.getElem?_eq_none (by omega)] at h
  cases h

theorem entry_push {p : ConstantPool} {n : Int} {c : Constant} (k : Constant) (h : p.entry n = .ok c) : (p.push k).entry n = .ok c := by
  obtain ⟨hn, hlt⟩ := lt_of_entry h
  unfold ConstantPool.entry ConstantPool.push at *
  rw [if_neg (by omega)] at h ⊢
  rwa [Array.getElem?_push_lt hlt, ← Array.getElem?_eq_getElem hlt]

theorem entry_push_size (p : ConstantPool) {k : Constant} {key : InternKey} (hk : k.internKey? = some key) :
    (p.push k).entry p.size = .ok k := by
  unfold entry push size
  rw [if_neg (by omega), show ((p.entries.size + 1 : Nat) - 1 : Int).toNat = p.entries.size by omega]
  rw [Array.getElem?_push_size]
  cases k <;> first | rfl | cases hk

/-- Interning adds at most a constant, whose index is known afterwards. -/
theorem adds_intern (a : Assembler) (key : InternKey) {k : Constant} (hk : a.Sound → k.internKey? = some key) :
    Adds a (a.intern key k).1 [] ∧ (a.intern key k).1.interned[key]? = some (a.intern key k).2 := by
  unfold intern
  cases hn : a.interned[key]? with
  | some n => exact ⟨.refl a, hn⟩
  | none =>
    refine ⟨⟨.of_eq rfl rfl id (Int.le_refl _) (fun key' n hkey' => ?_) fun h => ⟨fun key' n hkey' => ?_, h.classes⟩, rfl⟩,
      Std.HashMap.getElem?_insert_self⟩
    · exact insert_keeps hn hkey'
    rw [Std.HashMap.getElem?_insert] at hkey'
    split at hkey'
    · rename_i heq
      cases hkey'
      exact ⟨k, entry_push_size a.pool (hk h), by rw [hk h, beq_iff_eq.1 heq]⟩
    · obtain ⟨c, hc, hkey⟩ := h.interned key' n hkey'
      exact ⟨c, entry_push k hc, hkey⟩

theorem adds_insert (a : Assembler) (c : ClassRef) : Adds a { a with classes := a.classes.insert c.name c } [] := by
  refine ⟨.of_eq rfl rfl id (Int.le_refl _) (fun _ _ => id) fun h => ⟨h.interned, fun name' c' hc' => ?_⟩, rfl⟩
  rw [Std.HashMap.getElem?_insert] at hc'
  split at hc'
  · rename_i heq
    cases hc'
    exact beq_iff_eq.1 heq
  · exact h.classes name' c' hc'

theorem adds_classIndex (a : Assembler) (name : Text) :
    Adds a (a.classIndex name).1 [] ∧ (a.classIndex name).1.interned[InternKey.cls name]? = some (a.classIndex name).2 := by
  unfold classIndex classRef
  cases hc : a.classes[name]? with
  | some c => exact a.adds_intern (.cls name) fun h => by rw [Constant.internKey?, h.classes name c hc]
  | none =>
    obtain ⟨hadds, hkey⟩ := adds_intern { a with classes := a.classes.insert name ({ name } : ClassRef) } (.cls name)
      (k := .cls { name }) fun _ => rfl
    exact ⟨(a.adds_insert { name }).trans hadds, hkey⟩

/-! ## Steps -/

theorem adds_put (a : Assembler) (ps : List Piece) : Adds a (a.put ps) ps := by
  induction ps generalizing a with
  | nil => exact .refl a
  | cons p ps ih =>
    cases p with
    | bytes bs => exact (a.adds_emit bs).trans (ih _)
    | jump base isLong l => exact (a.adds_reference base isLong l).trans (ih _)

theorem code_act (a : Assembler) (room : Option Int) (w : Wanted) (ps : List Piece) :
    (a.act room w ps).code.toList = a.code.toList ++ blank ps := by
  obtain ⟨pool, interned, classes, hfind⟩ := a.find_eq w
  have hput := (adds_put (a.find w).1 ps).code
  rw [hfind] at hput
  unfold act
  rw [hfind]
  cases room <;> exact hput

theorem adds_find (a : Assembler) {w : Wanted} (hw : w.Keyed) :
    Adds a (a.find w).1 [] ∧ ∀ key, w.key? = some key → (a.find w).1.interned[key]? = some (a.find w).2 := by
  cases w with
  | nothing => exact ⟨.refl a, nofun⟩
  | constant key c =>
    obtain ⟨hadds, hkey⟩ := a.adds_intern key fun _ => hw
    exact ⟨hadds, fun key' hkey' => Option.some.inj hkey' ▸ hkey⟩
  | cls name =>
    obtain ⟨hadds, hkey⟩ := a.adds_classIndex name
    exact ⟨hadds, fun key' hkey' => Option.some.inj hkey' ▸ hkey⟩

theorem adds_act (a : Assembler) (room : Option Int) {w : Wanted} (ps : List Piece) (hw : w.Keyed) : Adds a (a.act room w ps) ps ∧
    (∀ key, w.key? = some key → (a.act room w ps).interned[key]? = some (a.find w).2) ∧ ∀ n, room = some n → n ≤ (a.act room w ps).maxLocals := by
  obtain ⟨hadds, hkey⟩ := a.adds_find hw
  have hput := adds_put (a.find w).1 ps
  cases room with
  | none => exact ⟨hadds.trans hput, fun key hw => hput.interned key _ (hkey key hw), nofun⟩
  | some n =>
    have hall := (hadds.trans hput).trans (adds_locals ((a.find w).1.put ps) n)
    rw [nil_append, append_nil] at hall
    refine ⟨hall, fun key hw => hput.interned key _ (hkey key hw), fun n' hn => ?_⟩
    cases hn
    exact Int.le_max_right _ _

end Assembler
end Bytelift
