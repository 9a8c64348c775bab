import Bytelift.Proofs.Code.Writing
import Bytelift.Proofs.Code.Tiling
import Bytelift.Proofs.Source.Assembly

/-!
# Decoding undoes assembling

A run of calls of an assembler writes the pieces of the instructions that the calls ask for, one after the other. When the method is
built the labels are filled in, and the code is then made of encoded instructions without a gap, so it decodes to them.

Results:
* `Assembler.build_built`: **decoding undoes assembling.**
-/

namespace Bytelift

open List

namespace Call

/-- The calls that write an instruction, each with the assembler before it. -/
def emitted : Assembler → List Call → List (Assembler × Call)
  | _, [] => []
  | a, c :: cs => if c.emits then (a, c) :: emitted (c.apply a) cs else emitted (c.apply a) cs

/-- Some calls place a label at a bci. -/
def Places (a : Assembler) (cs : List Call) (l : Text) (p : Nat) : Prop :=
  ∃ pre post, cs = pre ++ .label l :: post ∧ (run a pre).pos = p

end Call

open Call (run emitted Places)

namespace Assembler

variable {a z : Assembler} {c : Call} {cs : List Call}

/-! ## One call -/

/-- What one call does: it writes pieces, and places a label if it is for that. -/
structure Step (c : Call) (a b : Assembler) (ps : List Piece) : Prop extends Grows a b ps where
  labels : ∀ (l : Text) (p : Nat), b.labels[l]? = some p ↔ a.labels[l]? = some p ∨ c = .label l ∧ a.pos = p

theorem Adds.step {b : Assembler} {ps : List Piece} (h : Adds a b ps) (hlabel : ∀ l, c ≠ .label l) : Step c a b ps where
  toGrows := h.toGrows
  labels l p := by
    rw [h.labels]
    exact ⟨.inl, fun h => h.resolve_right fun hc => hlabel l hc.1⟩

theorem step_label {l : Text} (h : (a.label l).error = none) : Step (.label l) a (a.label l) [] := by
  unfold label at h ⊢
  split at h
  · exact absurd h (error_fail _ _)
  rename_i hnew
  rw [if_neg hnew]
  refine ⟨.of_eq rfl rfl id (Int.le_refl _) (fun _ _ => id) fun h => ⟨h.interned, h.classes⟩, fun l' p => ?_⟩
  have hnone : a.labels[l]? = none := Std.HashMap.getElem?_eq_none (by simpa using hnew)
  rw [Std.HashMap.getElem?_insert]
  split
  · rename_i heq
    obtain rfl := beq_iff_eq.1 heq
    simp [hnone]
  · rename_i hne
    simp only [beq_iff_eq] at hne
    simp [hne]

/-- A call writes the pieces of the instruction that it asks for, and nothing if it asks for none. -/
theorem step_apply (hfits : c.Fits) (h : (c.apply a).error = none) : ∃ ps, Step c a (c.apply a) ps ∧
    if c.emits then ∀ z place, (c.apply a).Ends z → z.Resolved place ps → ∃ i, Encodes a (c.apply a) z c (filled place ps) i else ps = [] := by
  cases hemits : c.emits with
  | true =>
    obtain ⟨ps, hadds, henc⟩ := writes_apply hfits hemits h
    exact ⟨ps, hadds.step (fun l hl => by rw [hl] at hemits; cases hemits), henc⟩
  | false =>
    refine ⟨[], ?_, rfl⟩
    cases c with
    | label l => exact step_label h
    | declareClass d => exact (a.adds_insert (a.layout d)).step nofun
    | locals n => exact (a.adds_locals n).step nofun
    | guardRange | stack =>
      exact Adds.step ⟨.of_eq rfl rfl id (Int.le_refl _) (fun _ _ => id) fun h => ⟨h.interned, h.classes⟩, rfl⟩ nofun
    | _ => cases hemits

/-! ## A run of calls -/

theorem Ends.of_grows {b : Assembler} {ps : List Piece} (h : Grows a b ps) (hz : b.Ends z) : a.Ends z :=
  ⟨fun key n hn => hz.interned key n (h.interned key n hn), hz.sound, hz.pool, ⟨Nat.le_trans h.pos_le hz.code.1, hz.code.2⟩,
    hz.labels⟩

/-- What is read for a call that writes an instruction. -/
structure Reads (z : Assembler) (m : Int) (s : Assembler × Call) (i : Instruction) : Prop where
  bci : i.bci = s.1.pos
  asks : s.2.Asks s.1 z i
  locals : i.LocalsBelow m

/-- A run of calls writes pieces, which are the instructions that the calls ask for once the labels are filled in. -/
theorem run_grows (hfits : ∀ c ∈ cs, c.Fits) (h : (run a cs).error = none) : ∃ ps, Grows a (run a cs) ps ∧
    ∀ z place, (run a cs).Ends z → z.Resolved place ps →
      ∃ is, Code.Reads a.pos is (filled place ps) ∧ Forall₂ (Reads z (run a cs).maxLocals) (emitted a cs) is := by
  induction cs generalizing a with
  | nil => exact ⟨[], (Adds.refl a).toGrows, fun z place _ _ => ⟨[], rfl, .nil⟩⟩
  | cons c cs ih =>
    obtain ⟨hc, hcs⟩ := forall_mem_cons.1 hfits
    obtain ⟨qs, hgrows, hread⟩ := ih hcs h
    obtain ⟨ps, hstep, hwrites⟩ := step_apply hc (hgrows.error h)
    refine ⟨ps ++ qs, hstep.toGrows.trans hgrows, fun z place hz hres => ?_⟩
    obtain ⟨hps, hqs⟩ := resolved_append hres
    obtain ⟨is, hreads, hall⟩ := hread z place hz hqs
    have hpos : (c.apply a).pos = a.pos + (filled place ps).length := by rw [length_filled, hstep.pos]
    rw [filled_append]
    by_cases hemits : c.emits = true
    · rw [if_pos hemits] at hwrites
      obtain ⟨i, hi⟩ := hwrites z place (.of_grows hgrows hz) hps
      refine ⟨i :: is, ⟨hi.bci, hi.encodable, _, _, rfl, hi.fits, ?_⟩, ?_⟩
      · rwa [Instruction.next, ← Code.length_layout hi.encodable, ← hi.fits.length, hi.bci, ← hpos]
      · rw [emitted, if_pos hemits]
        exact .cons ⟨hi.bci, hi.asks, fun s hs => Int.le_trans (hi.locals s hs) hgrows.locals⟩ hall
    · rw [if_neg hemits] at hwrites
      subst hwrites
      rw [emitted, if_neg hemits]
      exact ⟨is, by simpa [filled, hpos] using hreads, hall⟩

/-- The labels of an assembler are those that its calls have placed. -/
theorem run_labels (hfits : ∀ c ∈ cs, c.Fits) (h : (run a cs).error = none) (l : Text) (p : Nat) :
    (run a cs).labels[l]? = some p ↔ a.labels[l]? = some p ∨ Places a cs l p := by
  induction cs generalizing a with
  | nil => exact ⟨.inl, fun h => h.resolve_right fun ⟨pre, post, hnil, _⟩ => by simp at hnil⟩
  | cons c cs ih =>
    obtain ⟨hc, hcs⟩ := forall_mem_cons.1 hfits
    obtain ⟨qs, hgrows, -⟩ := run_grows hcs h
    obtain ⟨ps, hstep, -⟩ := step_apply hc (hgrows.error h)
    refine (ih hcs h).trans ?_
    rw [hstep.labels, or_assoc]
    refine or_congr_right ⟨?_, ?_⟩
    · rintro (⟨rfl, hp⟩ | ⟨pre, post, rfl, hp⟩)
      · exact ⟨[], cs, rfl, hp⟩
      · exact ⟨c :: pre, post, rfl, hp⟩
    rintro ⟨pre, post, heq, hp⟩
    cases pre with
    | nil =>
      cases heq
      exact .inl ⟨rfl, hp⟩
    | cons d pre =>
      cases heq
      exact .inr ⟨pre, post, rfl, hp⟩

theorem run_label_le (hfits : ∀ c ∈ cs, c.Fits) (h : (run a cs).error = none) {l : Text} {p : Nat} (hp : Places a cs l p) :
    p ≤ (run a cs).pos := by
  obtain ⟨pre, post, rfl, rfl⟩ := hp
  have hsplit : run a (pre ++ .label l :: post) = run (run a pre) (.label l :: post) := foldl_append
  rw [hsplit] at h ⊢
  obtain ⟨ps, hgrows, -⟩ := run_grows (fun c hc => hfits c (mem_append_right _ hc)) h
  exact hgrows.pos_le

/-! ## Building -/

/-- An assembler that has not been called. -/
def start (owner name desc : Text) (isStatic : Bool) : Assembler := { owner, name, desc, isStatic }

/-- A method is what some calls of a new assembler ask for. -/
structure Built (a : Assembler) (cs : List Call) (m : Method) : Prop where
  /-- The code decodes to one instruction for each call that writes one, at the position before the call. -/
  instructions : ∃ is, Code.decode m.code = .ok is ∧ List.Forall₂ (Reads (run a cs) m.maxLocals) (emitted a cs) is
  /-- The labels that jumps go to are those that calls have placed. -/
  labels : ∀ (l : Text) (p : Nat), (run a cs).labels[l]? = some p ↔ Places a cs l p
  /-- The rows of the exception table lead to the places of their labels. -/
  rows : List.Forall₂ (fun t e => ∃ x y h : Nat, Places a cs t.start x ∧ Places a cs t.stop y ∧ Places a cs t.handler h ∧
    e = ⟨x, y, h, t.catchType, t.isCleanup⟩) (cs.filterMap Call.row?) m.exceptions
  pool : m.pool = (run a cs).pool
  /-- There is room for the parameters. -/
  parameters : ∃ t, MethodType.parse a.desc = .ok t ∧ (if a.isStatic then t.argSlots else t.argSlots + 1 : Int) ≤ m.maxLocals

theorem of_build_ok {m : Method} (h : z.build.2 = .ok m) : z.error = none ∧ ∃ t, MethodType.parse z.desc = .ok t ∧
    m.maxLocals = max z.maxLocals (if z.isStatic then t.argSlots else t.argSlots + 1) ∧ m.pool = z.pool ∧
    Forall₂ (fun t e => z.resolveTry t = .ok e) z.tries.toList m.exceptions ∧
    ∃ code, z.fixups.toList.foldlM z.applyFixup z.code = .ok code ∧ m.code = code.toList := by
  unfold build at h
  split at h
  · cases h
  rename_i herror
  split at h
  · cases h
  rename_i t ht
  obtain ⟨code, hcode, h⟩ := exists_of_bind_ok h
  obtain ⟨rows, hrows, h⟩ := exists_of_bind_ok h
  cases h
  exact ⟨herror, t, ht, rfl, rfl, forall₂_of_mapM_ok hrows, code, hcode, rfl⟩

theorem resolveTry_eq_ok {t : TryEntry} {e : ExceptionEntry} (h : z.resolveTry t = .ok e) :
    ∃ x y w : Nat, z.labels[t.start]? = some x ∧ z.labels[t.stop]? = some y ∧ z.labels[t.handler]? = some w ∧
      e = ⟨x, y, w, t.catchType, t.isCleanup⟩ := by
  obtain ⟨x, hx, h⟩ := exists_of_bind_ok h
  obtain ⟨y, hy, h⟩ := exists_of_bind_ok h
  obtain ⟨w, hw, h⟩ := exists_of_bind_ok h
  cases h
  exact ⟨x, y, w, resolve_eq_ok.1 hx, resolve_eq_ok.1 hy, resolve_eq_ok.1 hw, rfl⟩

theorem sound_start (owner name desc : Text) (isStatic : Bool) : (start owner name desc isStatic).Sound :=
  ⟨fun key n h => by simp [start] at h, fun name c h => by simp [start] at h⟩

/-- **Decoding undoes assembling.** The method that is built from calls whose operands fit has the instructions that the calls ask for. -/
theorem build_built {owner name desc : Text} {isStatic : Bool} {m : Method} (hfits : ∀ c ∈ cs, c.Fits)
    (hpool : (run (start owner name desc isStatic) cs).pool.entries.size ≤ 65535)
    (hcode : (run (start owner name desc isStatic) cs).pos < 2147483648)
    (h : (run (start owner name desc isStatic) cs).build.2 = .ok m) : Built (start owner name desc isStatic) cs m := by
  obtain ⟨herror, t, ht, hlocals, hmpool, hrows, code, hfill, hmcode⟩ := of_build_ok h
  obtain ⟨ps, hgrows, hread⟩ := run_grows hfits herror
  have hlabels (l : Text) (p : Nat) : (run (start owner name desc isStatic) cs).labels[l]? = some p ↔
      Places (start owner name desc isStatic) cs l p := by
    rw [run_labels hfits herror]
    simp [start]
  have hkept := outline_run (a := start owner name desc isStatic) cs
  generalize hz : run (start owner name desc isStatic) cs = z at *
  generalize ha : start owner name desc isStatic = a at *
  have hempty : a.pos = 0 ∧ a.code.toList = [] ∧ a.fixups.toList = [] ∧ a.tries.toList = [] := by subst ha; exact ⟨rfl, rfl, rfl, rfl⟩
  obtain ⟨hpos, hacode, hafix, hatries⟩ := hempty
  simp only [outline, hatries, List.nil_append, Prod.mk.injEq] at hkept
  obtain ⟨⟨-, -, hdesc, hstatic⟩, htries⟩ := hkept
  refine ⟨?_, hz ▸ hlabels, ?_, hmpool.trans (hz ▸ rfl), t, hdesc ▸ ht, ?_⟩
  · have hends : z.Ends z := ⟨fun _ _ => id, hgrows.sound (ha ▸ sound_start owner name desc isStatic), hpool, ⟨Nat.le_refl _, hcode⟩,
      fun l p hp => hz ▸ run_label_le hfits (hz ▸ herror) ((hlabels l p).1 hp)⟩
    rw [hgrows.fixups, hafix, hpos] at hfill
    obtain ⟨hfilled, hres⟩ := fill (fun l => z.labels[l]?.getD 0) (fun l p hp => by simp [hp]) ps [] z.code code
      (by rw [hgrows.code, hacode]) hfill
    obtain ⟨is, hreads, hall⟩ := hread z _ hends hres
    refine ⟨is, Code.decode_iff.2 ?_, hz ▸ hall.imp fun s i hi => ⟨hi.bci, hi.asks, fun n hn => ?_⟩⟩
    · rwa [hpos, ← List.nil_append (filled _ ps), ← hfilled, ← hmcode] at hreads
    · rw [hlocals]
      exact Int.le_trans (hi.locals n hn) (Int.le_max_left _ _)
  · rw [← htries]
    refine hrows.imp fun t e he => ?_
    obtain ⟨x, y, w, hx, hy, hw, he⟩ := resolveTry_eq_ok he
    exact ⟨x, y, w, (hlabels _ x).1 hx, (hlabels _ y).1 hy, (hlabels _ w).1 hw, he⟩
  · rw [hlocals, ← hstatic]
    exact Int.le_max_right _ _

theorem label_new {l : Text} (h : a.labels.contains l = false) : a.label l = { a with labels := a.labels.insert l a.pos } := by
  unfold label
  rw [if_neg (by simp [h])]

/-- A protected range around a large constant, a local beyond a byte and a switch back to its start. -/
def loopCalls : List Call :=
  [.label [0], .pushInt 70000, .localOp (.store .int) 300, .label [1], .guardRange ⟨[0], [1], [1], [], false⟩,
    .tableSwitch 5 [0] [[0], [1]]]

/-- The assembler of a static method without parameters. -/
def assembler (locals : Int) (code : List UInt8) (pool : List Constant) (interned : Std.HashMap InternKey Nat)
    (labels : Std.HashMap Text Nat) (fixups : List Fixup) (tries : List TryEntry) : Assembler :=
  { start [84] [102] [40, 41, 86] true with
    maxLocals := locals, code := code.toArray, pool := ⟨pool.toArray⟩, interned := interned, labels := labels
    fixups := fixups.toArray, tries := tries.toArray }

/-- The labels after the calls. -/
def loopLabels : Std.HashMap Text Nat := (({} : Std.HashMap Text Nat).insert [0] 0).insert [1] 6

theorem run_loopCalls : run (start [84] [102] [40, 41, 86] true) loopCalls =
    assembler 301 [0x12, 1, 0xc4, 0x36, 1, 44, 0xaa, 0, 0, 0, 0, 0, 0, 0, 0, 5, 0, 0, 0, 6, 0, 0, 0, 0, 0, 0, 0, 0] [.int 70000]
      (({} : Std.HashMap InternKey Nat).insert (.int 70000) 1) loopLabels
      [⟨8, 6, true, [0]⟩, ⟨20, 6, true, [0]⟩, ⟨24, 6, true, [1]⟩] [⟨[0], [1], [1], [], false⟩] := by
  have hpush (a : Assembler) : a.pushInt 70000 = a.ldcInt 70000 := rfl
  have htop : (start [84] [102] [40, 41, 86] true).label [0] = assembler 0 [] [] {} (({} : Std.HashMap Text Nat).insert [0] 0) [] [] :=
    label_new (by simp [start])
  have hldc (l : Std.HashMap Text Nat) : (assembler 0 [] [] {} l [] []).ldcInt 70000 =
      assembler 0 [0x12, 1] [.int 70000] (({} : Std.HashMap InternKey Nat).insert (.int 70000) 1) l [] [] := by
    unfold ldcInt
    rw [intern_new (by simp [assembler])]
    rfl
  have hstore (i : Std.HashMap InternKey Nat) (l : Std.HashMap Text Nat) :
      (assembler 0 [0x12, 1] [.int 70000] i l [] []).localOp (.store .int) 300 =
        assembler 301 [0x12, 1, 0xc4, 0x36, 1, 44] [.int 70000] i l [] [] := by
    have hwide : Opcode.wide.byte = 0xc4 := by decide +kernel
    have hbyte : (Opcode.store .int).byte = 0x36 := by decide +kernel
    unfold localOp
    dsimp only
    rw [if_pos (by decide), hwide, hbyte]
    rfl
  have hend (i : Std.HashMap InternKey Nat) :
      (assembler 301 [0x12, 1, 0xc4, 0x36, 1, 44] [.int 70000] i (({} : Std.HashMap Text Nat).insert [0] 0) [] []).label [1] =
        assembler 301 [0x12, 1, 0xc4, 0x36, 1, 44] [.int 70000] i loopLabels [] [] :=
    label_new (by simp [assembler])
  have htable : Opcode.tableswitch.byte = 0xaa := by decide +kernel
  simp only [run, loopCalls, foldl_cons, foldl_nil, Call.apply, hpush, htop, hldc, hstore, hend]
  unfold tableSwitch
  rw [if_neg (by decide), htable]
  rfl

theorem loopCalls_built : ∃ m, (run (start [84] [102] [40, 41, 86] true) loopCalls).build.2 = .ok m ∧
    Built (start [84] [102] [40, 41, 86] true) loopCalls m := by
  have htop : loopLabels[([0] : Text)]? = some 0 := by
    rw [loopLabels, Std.HashMap.getElem?_insert, if_neg (by decide), Std.HashMap.getElem?_insert_self]
  have hend : loopLabels[([1] : Text)]? = some 6 := by
    rw [loopLabels, Std.HashMap.getElem?_insert_self]
  obtain ⟨m, hm⟩ : ∃ m, (run (start [84] [102] [40, 41, 86] true) loopCalls).build.2 = .ok m := by
    rw [run_loopCalls]
    obtain ⟨t, ht⟩ : ∃ t, MethodType.parse [40, 41, 86] = .ok t := ⟨_, rfl⟩
    unfold build finish applyFixup resolveTry resolve
    simp [assembler, start, ht, locals, htop, hend, bind, Except.bind, pure, Except.pure]
  refine ⟨m, hm, build_built (by simp [loopCalls, Call.Fits]) ?_ ?_ hm⟩
  · rw [run_loopCalls]
    decide
  · rw [run_loopCalls]
    decide

end Assembler
end Bytelift
