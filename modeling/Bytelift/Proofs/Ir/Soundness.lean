import Bytelift.Proofs.Ir.Building
import Mathlib.Data.List.Nodup
import Mathlib.Data.List.TakeWhile

/-!
# Sound modules can be frozen

`Module.Sound` states the rules of a module block by block, in a form that stays true of a block while
the rest of the module grows. It allows for what construction leaves open: blocks without a terminator,
sites without a landingpad, landingpads without a descriptor. `Module.Complete` says that nothing of
this is left.

Results:
* `Builder.freeze_sound`: **a sound, complete module without a recorded mistake can be frozen**.
-/

namespace Bytelift.Ir

open List Module
open Terminator (edges)

namespace Module

/-! ## The rules -/

/-- A block that a jump may lead to. A continuation block is only entered from the block before it. -/
def Target (m : Module) (b : BlockId) : Prop := ∃ k, m.block? b = some k ∧ k.kind ≠ .continue

/-- A block that continues an earlier one. -/
def Continues (m : Module) (b t : BlockId) : Prop :=
  b < t ∧ ∃ k, m.block? t = some k ∧ k.kind = .continue

/-- A block that faults may go to. -/
def UnwindDest (m : Module) (u : BlockId) : Prop :=
  ∃ k, m.block? u = some k ∧ k.kind = .landingpad

/-- A value of a type that a block can use at its end. -/
def Use (m : Module) (b : BlockId) (v : ValueId) (ty : Ty) : Prop :=
  m.Avail b v ∧ ∃ i, m.inst? v = some i ∧ i.ty = ty

/-- A block whose last instruction can fault. -/
def Faulting (m : Module) (k : Block) : Prop :=
  ∃ v i, k.insts.back? = some v ∧ m.inst? v = some i ∧ i.op.mayThrow = true

/-- The rules for terminators. -/
def SoundTerm (m : Module) (b : BlockId) (k : Block) : Terminator → Prop
  | .none | .unreachable => True
  | .goto t | .fallthrough t => m.Target t
  | .condBr v t e => m.Target t ∧ m.Target e ∧ m.Use b v .i1
  | .switch v d cs =>
    (d ≠ noBlock → m.Target d) ∧ (∀ c ∈ cs, m.Target c.target) ∧ m.Use b v .i32
  | .ret v => (v = noValue → m.result = .void) ∧ (v ≠ noValue → m.Use b v m.result)
  | .throw v u => m.Use b v .ref ∧ (u ≠ noBlock → m.UnwindDest u)
  | .mayUnwind t u =>
    (m.Target t ∨ m.Continues b t) ∧ (u ≠ noBlock → m.UnwindDest u) ∧ m.Faulting k
  | .resume v => m.Use b v .ref
  | .unknown _ => False

/-- The rules for an instruction of a block, with the values that the block defines before it. -/
structure SoundInst (m : Module) (b : BlockId) (k : Block) (before : List ValueId) (v : ValueId)
    (i : Inst) : Prop where
  id : i.id = v
  block : i.block = b
  args : ∀ a ∈ i.args, a ∈ before ∨ m.AvailAbove b a
  landingpad : i.op = .landingpad → before = [] ∧ k.kind = .landingpad

/-- The rules for a block. -/
structure SoundBlock (m : Module) (b : BlockId) (k : Block) : Prop where
  id : k.id = b
  inst : ∀ {before v after}, k.insts.toList = before ++ v :: after →
    ∃ i, m.inst? v = some i ∧ m.SoundInst b k before v i
  term : m.SoundTerm b k k.term
  pad : ∀ {d}, k.pad = some d →
    (∃ v i, k.insts[0]? = some v ∧ m.inst? v = some i ∧ i.op = .landingpad) ∧
      ∀ c ∈ d.clauses, m.Target c.target

/-- The rules for a module under construction. -/
structure Sound (m : Module) : Prop where
  block : ∀ {b k}, m.block? b = some k → m.SoundBlock b k
  /-- No two blocks are continued by the same one. -/
  joined : ∀ {p q kp kq t u u'}, m.block? p = some kp → m.block? q = some kq →
    kp.term = .mayUnwind t u → kq.term = .mayUnwind t u' → m.Continues p t → p = q

/-- Nothing is left open. -/
structure Complete (m : Module) : Prop where
  term : ∀ {b k}, m.block? b = some k → k.term ≠ .none
  unwind : ∀ {b k t u}, m.block? b = some k → k.term = .mayUnwind t u → u ≠ noBlock
  pad : ∀ {b k}, m.block? b = some k → k.kind = .landingpad → ∃ d, k.pad = some d

/-! ## Growth keeps the rules -/

section Mono

variable {m m' : Module} {b t v : Int} {k : Block} {ty : Ty} {tm : Terminator} {s : BlockId}

theorem Target.mono (hg : m.Grows m') (h : m.Target t) : m'.Target t := by
  obtain ⟨k, hk, hkind⟩ := h
  obtain ⟨k', hk', hkk⟩ := hg.block hk
  exact ⟨k', hk', hkk.kind ▸ hkind⟩

theorem Continues.mono (hg : m.Grows m') (h : m.Continues b t) : m'.Continues b t := by
  obtain ⟨hlt, k, hk, hkind⟩ := h
  obtain ⟨k', hk', hkk⟩ := hg.block hk
  exact ⟨hlt, k', hk', hkk.kind.trans hkind⟩

theorem UnwindDest.mono (hg : m.Grows m') (h : m.UnwindDest t) : m'.UnwindDest t := by
  obtain ⟨k, hk, hkind⟩ := h
  obtain ⟨k', hk', hkk⟩ := hg.block hk
  exact ⟨k', hk', hkk.kind.trans hkind⟩

theorem Use.mono (hg : m.Grows m') (h : m.Use b v ty) : m'.Use b v ty := by
  obtain ⟨ha, i, hi, hty⟩ := h
  exact ⟨ha.mono hg, i, hg.inst hi, hty⟩

theorem Faulting.mono (hg : m.Grows m') (h : m.Faulting k) : m'.Faulting k := by
  obtain ⟨v, i, hv, hi, ht⟩ := h
  exact ⟨v, i, hv, hg.inst hi, ht⟩

theorem Target.not_continues (h : m.Target t) : ¬ m.Continues b t := by
  rintro ⟨-, k', hk', hkind'⟩
  obtain ⟨k, hk, hkind⟩ := h
  rw [hk] at hk'
  cases hk'
  exact hkind hkind'

theorem SoundTerm.mono (hg : m.Grows m') (h : m.SoundTerm b k tm) :
    m'.SoundTerm b k tm := by
  cases tm with
  | none | unreachable => trivial
  | goto t | fallthrough t => exact Target.mono hg h
  | condBr v t e => exact ⟨h.1.mono hg, h.2.1.mono hg, h.2.2.mono hg⟩
  | switch v d cs =>
    exact ⟨fun hd => (h.1 hd).mono hg, fun c hc => (h.2.1 c hc).mono hg, h.2.2.mono hg⟩
  | ret v => exact ⟨fun hv => hg.result.trans (h.1 hv), fun hv => hg.result ▸ (h.2 hv).mono hg⟩
  | throw v u => exact ⟨h.1.mono hg, fun hu => (h.2 hu).mono hg⟩
  | mayUnwind t u =>
    exact ⟨h.1.imp (Target.mono hg) (Continues.mono hg), fun hu => (h.2.1 hu).mono hg, h.2.2.mono hg⟩
  | resume v => exact Use.mono hg h
  | unknown n => exact h

theorem SoundInst.mono {before : List ValueId} {i : Inst} (hg : m.Grows m')
    (h : m.SoundInst b k before v i) : m'.SoundInst b k before v i :=
  { h with args := fun a ha => (h.args a ha).imp_right (AvailAbove.mono hg) }

theorem SoundBlock.mono (hg : m.Grows m') (h : m.SoundBlock b k) : m'.SoundBlock b k where
  id := h.id
  inst hv := by
    obtain ⟨i, hi, hs⟩ := h.inst hv
    exact ⟨i, hg.inst hi, hs.mono hg⟩
  term := h.term.mono hg
  pad hd := by
    obtain ⟨⟨v, i, hv, hi, ho⟩, hc⟩ := h.pad hd
    exact ⟨⟨v, i, hv, hg.inst hi, ho⟩, fun c hm => (hc c hm).mono hg⟩

theorem SoundTerm.withUnwind {u : BlockId} (h : m.SoundTerm b k tm)
    (hu : m.UnwindDest u) : m.SoundTerm b k (tm.withUnwind u) := by
  cases tm with
  | throw v _ => exact ⟨h.1, fun _ => hu⟩
  | mayUnwind t _ => exact ⟨h.1, fun _ => hu, h.2.2⟩
  | _ => exact h

/-- What a terminator may demand of its block is the last instruction. -/
theorem SoundTerm.congr {k' : Block} (hk : k'.insts = k.insts)
    (h : m.SoundTerm b k tm) : m.SoundTerm b k' tm := by
  cases tm with
  | mayUnwind t u =>
    obtain ⟨ht, hu, v, i, hv, hi, hm⟩ := h
    exact ⟨ht, hu, v, i, hk ▸ hv, hi, hm⟩
  | _ => exact h

theorem SoundBlock.setEdges {preds succs : List BlockId} (h : m.SoundBlock b { k with preds := preds, succs := succs }) :
    m.SoundBlock b k :=
  ⟨h.id, fun hv => let ⟨i, hi, hx⟩ := h.inst hv; ⟨i, hi, hx.id, hx.block, hx.args, hx.landingpad⟩, h.term.congr rfl, h.pad⟩

end Mono

/-! ## Entering the edges -/

/-- A module with other edges entered, and nothing else changed. -/
structure Linked (m m' : Module) : Prop where
  header : m'.header = m.header
  insts : m'.insts = m.insts
  temps : m'.temps = m.temps
  numStack : m'.numStack = m.numStack
  size : m'.blocks.size = m.blocks.size
  block : ∀ b, ∃ preds succs, m'.block? b =
    (m.block? b).map fun k => { k with preds := preds, succs := succs }

namespace Linked

variable {m m' m'' : Module} {b : BlockId} {k k' : Block}

section

variable (h : m.Linked m')

include h

theorem inst? (v : ValueId) : m'.inst? v = m.inst? v := by
  unfold Module.inst?
  rw [h.insts]

theorem block_of_some (hk : m.block? b = some k) :
    ∃ preds succs, m'.block? b = some { k with preds := preds, succs := succs } := by
  obtain ⟨preds, succs, hb⟩ := h.block b
  exact ⟨preds, succs, by rw [hb, hk]; rfl⟩

theorem some_of_block (hk : m'.block? b = some k') :
    ∃ k, m.block? b = some k ∧ ∃ preds succs, k' = { k with preds := preds, succs := succs } := by
  obtain ⟨preds, succs, hb⟩ := h.block b
  rw [hb] at hk
  obtain ⟨k, hk0, rfl⟩ := Option.map_eq_some_iff.1 hk
  exact ⟨k, hk0, preds, succs, rfl⟩

theorem grows : m.Grows m' where
  inst hv := by rwa [h.inst?]
  temp hn := by rwa [h.temps]
  block hk := by
    obtain ⟨preds, succs, hb⟩ := h.block_of_some hk
    exact ⟨_, hb, rfl, rfl, rfl, rfl, prefix_rfl, fun _ => ⟨rfl, .refl _⟩, fun _ hd => hd⟩
  header := h.header

end

theorem refl (m : Module) : m.Linked m :=
  ⟨rfl, rfl, rfl, rfl, rfl, fun b => by
    cases h : m.block? b with
    | none => exact ⟨[], [], rfl⟩
    | some k => exact ⟨k.preds, k.succs, rfl⟩⟩

theorem trans (h : m.Linked m') (h' : m'.Linked m'') : m.Linked m'' where
  header := h'.header.trans h.header
  insts := h'.insts.trans h.insts
  temps := h'.temps.trans h.temps
  numStack := h'.numStack.trans h.numStack
  size := h'.size.trans h.size
  block b := by
    obtain ⟨p, s, hb⟩ := h.block b
    obtain ⟨p', s', hb'⟩ := h'.block b
    refine ⟨p', s', ?_⟩
    rw [hb', hb, Option.map_map]
    rfl

theorem modifyBlock (m : Module) (b : BlockId) (preds succs : Block → List BlockId) :
    m.Linked (m.modifyBlock b fun k => { k with preds := preds k, succs := succs k }) := by
  unfold Module.modifyBlock
  split
  · refine ⟨rfl, rfl, rfl, rfl, by simp, fun c => ?_⟩
    simp only [block?, lookup?_modify]
    cases h : lookup? m.blocks c with
    | none => exact ⟨[], [], by simp⟩
    | some k =>
      split
      · exact ⟨preds k, succs k, rfl⟩
      · exact ⟨k.preds, k.succs, rfl⟩
  · exact .refl m

theorem sound (h : m.Linked m') (hs : m.Sound) : m'.Sound where
  block hk := by
    obtain ⟨k, hk0, preds, succs, rfl⟩ := h.some_of_block hk
    exact .setEdges ((hs.block hk0).mono h.grows)
  joined hp hq ht ht' hc := by
    obtain ⟨kp, hp0, _, _, rfl⟩ := h.some_of_block hp
    obtain ⟨kq, hq0, _, _, rfl⟩ := h.some_of_block hq
    refine hs.joined hp0 hq0 ht ht' ?_
    obtain ⟨hlt, _, hkt, hkind⟩ := hc
    obtain ⟨kt, hkt0, _, _, rfl⟩ := h.some_of_block hkt
    exact ⟨hlt, kt, hkt0, hkind⟩

theorem complete (h : m.Linked m') (hc : m.Complete) : m'.Complete where
  term hk := by
    obtain ⟨k, hk0, _, _, rfl⟩ := h.some_of_block hk
    have ht := hc.term hk0
    exact ht
  unwind hk ht := by
    obtain ⟨k, hk0, _, _, rfl⟩ := h.some_of_block hk
    exact hc.unwind hk0 ht
  pad hk hkind := by
    obtain ⟨k, hk0, _, _, rfl⟩ := h.some_of_block hk
    have hd := hc.pad hk0 hkind
    exact hd

end Linked

end Module

/-- The successors are the edges that are there, each once. -/
theorem Terminator.successors_spec (t : Terminator) :
    t.successors.Nodup ∧ ∀ s, s ∈ t.successors ↔ s ∈ t.edges ∧ s ≠ noBlock := by
  have general (es acc : List BlockId) (hn : acc.Nodup) :
      (es.foldl (fun out b => if b = noBlock ∨ out.contains b then out else out ++ [b]) acc).Nodup ∧
        ∀ s, s ∈ es.foldl (fun out b => if b = noBlock ∨ out.contains b then out else out ++ [b]) acc ↔
          s ∈ acc ∨ s ∈ es ∧ s ≠ noBlock := by
    induction es generalizing acc with
    | nil => simpa using hn
    | cons e es ih =>
      rw [foldl_cons]
      split
      · obtain ⟨hnd, hmem⟩ := ih acc hn
        refine ⟨hnd, fun s => ?_⟩
        rw [hmem]
        grind
      · have hn' : (acc ++ [e]).Nodup := by grind
        obtain ⟨hnd, hmem⟩ := ih (acc ++ [e]) hn'
        refine ⟨hnd, fun s => ?_⟩
        rw [hmem]
        grind
  obtain ⟨hn, hm⟩ := general t.edges [] nodup_nil
  exact ⟨hn, fun s => (hm s).trans (by simp)⟩

namespace Builder

theorem foldl_addPred (p : BlockId) (ss : List BlockId) (hn : ss.Nodup) (m : Module) :
    m.Linked (ss.foldl (fun m s => m.modifyBlock s fun k => { k with preds := k.preds ++ [p] }) m) ∧
      ∀ {b k}, m.block? b = some k → ∃ k',
        (ss.foldl (fun m s => m.modifyBlock s fun k => { k with preds := k.preds ++ [p] }) m).block? b =
          some k' ∧ k'.preds = k.preds ++ (if b ∈ ss then [p] else []) ∧ k'.succs = k.succs := by
  induction ss generalizing m with
  | nil => exact ⟨.refl m, fun {b k} h => ⟨k, h, by simp, rfl⟩⟩
  | cons s ss ih =>
    rw [foldl_cons]
    obtain ⟨hs, hn⟩ := nodup_cons.1 hn
    obtain ⟨hl, hb⟩ := ih hn (m.modifyBlock s fun k => { k with preds := k.preds ++ [p] })
    refine ⟨(Linked.modifyBlock m s (·.preds ++ [p]) (·.succs)).trans hl, fun {b k} hk => ?_⟩
    by_cases h : b = s
    · subst b
      obtain ⟨k', hk', hp, hs'⟩ := hb (b := s) (k := { k with preds := k.preds ++ [p] })
        (by rw [block?_modifyBlock, if_pos rfl, hk]; rfl)
      refine ⟨k', hk', ?_, hs'⟩
      rw [hp]
      simp [hs]
    · obtain ⟨k', hk', hp, hs'⟩ := hb (b := b) (k := k) (by rw [block?_modifyBlock, if_neg h, hk])
      refine ⟨k', hk', ?_, hs'⟩
      rw [hp]
      simp [h]

/-- Entering edges changes nothing else. It ends well if all edges lead to blocks; then each block gets the blocks that lead to
it, in order, and those that it leads to. -/
theorem connectFrom_spec (bs : List Block) (m : Module) :
    m.Linked (connectFrom bs m).1 ∧
      ((connectFrom bs m).2 = none ↔ ∀ k ∈ bs, ∀ s ∈ k.term.successors, m.hasBlock s = true) ∧
      ((connectFrom bs m).2 = none → ∀ {b k}, m.block? b = some k → ∃ k', (connectFrom bs m).1.block? b = some k' ∧
        k'.preds = k.preds ++ (bs.filter fun p => p.term.successors.contains b).map (·.id) ∧
        (k'.succs = k.succs ∨ ∃ q ∈ bs, q.id = b ∧ k'.succs = q.term.successors)) := by
  induction bs generalizing m with
  | nil => exact ⟨.refl m, by simp [connectFrom], fun _ {b k} hk => ⟨k, hk, by simp, .inl rfl⟩⟩
  | cons q bs ih =>
    obtain ⟨hl2, hb2⟩ := foldl_addPred q.id (q.term.successors.takeWhile m.hasBlock)
      (q.term.successors_spec.1.sublist (takeWhile_sublist _)) (m.modifyBlock q.id fun k => { k with succs := q.term.successors })
    have hl := (Linked.modifyBlock m q.id (·.preds) (fun _ => q.term.successors)).trans hl2
    rw [connectFrom]
    generalize foldl _ _ (q.term.successors.takeWhile m.hasBlock) = m1 at hl hb2 ⊢
    cases hdrop : q.term.successors.drop (q.term.successors.takeWhile m.hasBlock).length with
    | cons s rest =>
      refine ⟨hl, ⟨nofun, fun h => ?_⟩, nofun⟩
      rw [takeWhile_eq_self_iff.2 (h q mem_cons_self), drop_length] at hdrop
      cases hdrop
    | nil =>
      have htake : q.term.successors.takeWhile m.hasBlock = q.term.successors :=
        (takeWhile_sublist _).eq_of_length_le (drop_eq_nil_iff.1 hdrop)
      have hhas : m1.hasBlock = m.hasBlock := by
        funext s
        unfold hasBlock
        rw [hl.size]
      obtain ⟨hl', hok, hspec⟩ := ih m1
      refine ⟨hl.trans hl', ?_, fun h {b k} hk => ?_⟩
      · rw [hok, hhas, forall_mem_cons, and_iff_right (takeWhile_eq_self_iff.1 htake)]
      obtain ⟨k1, hk1, hp1, hs1⟩ : ∃ k1, (m.modifyBlock q.id fun k => { k with succs := q.term.successors }).block? b = some k1 ∧
          k1.preds = k.preds ∧ (k1.succs = k.succs ∨ q.id = b ∧ k1.succs = q.term.successors) := by
        rw [block?_modifyBlock]
        split
        · exact ⟨{ k with succs := q.term.successors }, by rw [hk]; rfl, rfl, .inr ⟨Eq.symm ‹_›, rfl⟩⟩
        · exact ⟨k, hk, rfl, .inl rfl⟩
      obtain ⟨k2, hk2, hp2, hs2⟩ := hb2 hk1
      obtain ⟨k3, hk3, hp3, hs3⟩ := hspec h hk2
      refine ⟨k3, hk3, ?_, ?_⟩
      · rw [hp3, hp2, hp1, htake, filter_cons]
        by_cases hmem : b ∈ q.term.successors <;> simp [hmem]
      · rcases hs3 with hs3 | ⟨q', hq', hs3⟩
        · rw [hs3, hs2]
          exact hs1.imp_right fun hs => ⟨q, mem_cons_self, hs⟩
        · exact .inr ⟨q', mem_cons_of_mem _ hq', hs3⟩

end Builder

namespace Module

variable {m m' : Module} {b : Int} {k : Block}

/-- An edge of a sound block leads to a block that anything may go to, to a landingpad or to what continues the block. -/
theorem SoundTerm.edge_cases {t : Terminator} (h : m.SoundTerm b k t) (hs : s ∈ t.edges) (hne : s ≠ noBlock) :
    m.Target s ∨ m.UnwindDest s ∨ ∃ u, t = .mayUnwind s u ∧ m.Continues b s := by
  cases t with
  | goto t | fallthrough t =>
    obtain rfl := mem_singleton.1 hs
    exact .inl h
  | condBr v t e =>
    simp only [edges, mem_cons, not_mem_nil, or_false] at hs
    rcases hs with rfl | rfl
    · exact .inl h.1
    · exact .inl h.2.1
  | switch v d cs =>
    simp only [edges, mem_append, mem_map, mem_singleton] at hs
    rcases hs with ⟨c, hc, rfl⟩ | rfl
    · exact .inl (h.2.1 c hc)
    · exact .inl (h.1 hne)
  | mayUnwind t u =>
    simp only [edges, mem_cons, not_mem_nil, or_false] at hs
    rcases hs with rfl | rfl
    · exact h.1.imp_right fun hc => .inr ⟨u, rfl, hc⟩
    · exact .inr (.inl (h.2.1 hne))
  | throw v u =>
    obtain rfl := mem_singleton.1 hs
    exact .inr (.inl (h.2 hne))
  | _ => simp [edges] at hs

theorem SoundTerm.edge {t : Terminator} (h : m.SoundTerm b k t) (hs : s ∈ t.edges) (hne : s ≠ noBlock) :
    ∃ k, m.block? s = some k := by
  rcases h.edge_cases hs hne with ⟨k, hk, -⟩ | ⟨k, hk, -⟩ | ⟨-, -, -, k, hk, -⟩ <;> exact ⟨k, hk⟩

/-- A continuation block is only an edge of a block that may unwind. -/
theorem SoundTerm.continues {t : Terminator} {ks : Block} (h : m.SoundTerm b k t)
    (hs : s ∈ t.edges) (hks : m.block? s = some ks) (hkind : ks.kind = .continue) :
    ∃ u, t = .mayUnwind s u ∧ m.Continues b s := by
  have hne : s ≠ noBlock := by
    have := (block?_lt hks).1
    unfold noBlock
    lia
  rcases h.edge_cases hs hne with ⟨k', hk', hno⟩ | ⟨k', hk', hpad⟩ | hcont
  · obtain rfl := Option.mem_unique hks hk'
    exact absurd hkind hno
  · obtain rfl := Option.mem_unique hks hk'
    cases hkind.symm.trans hpad
  · exact hcont

theorem mem_blocks_iff : k ∈ m.blocks.toList ↔ ∃ b, m.block? b = some k := by
  constructor
  · intro h
    obtain ⟨n, hn, rfl⟩ := Array.mem_iff_getElem.1 (Array.mem_toList_iff.1 h)
    exact ⟨n, by rw [block?, lookup?_ofNat, Array.getElem?_eq_getElem hn]⟩
  · rintro ⟨b, h⟩
    exact block?_mem h

theorem nodup_ids (h : ∀ {b k}, m.block? b = some k → k.id = b) : (m.blocks.toList.map (·.id)).Nodup := by
  have hmap : m.blocks.toList.map (·.id) = (List.range m.blocks.size).map Int.ofNat := by
    refine ext_getElem (by simp) fun n hn hn' => ?_
    have hn : n < m.blocks.size := by simpa using hn
    simp only [getElem_map, Array.getElem_toList, getElem_range]
    exact h (by rw [block?, Int.ofNat_eq_natCast, lookup?_ofNat, Array.getElem?_eq_getElem hn])
  rw [hmap]
  exact List.Nodup.map (fun _ _ h => Int.ofNat_inj.1 h) nodup_range

/-- The module without its edges. -/
abbrev cleared (m : Module) : Module := { m with blocks := m.blocks.map fun k => { k with preds := [], succs := [] } }

theorem block?_cleared (m : Module) (c : BlockId) :
    m.cleared.block? c = (m.block? c).map fun k => { k with preds := [], succs := [] } := by
  unfold block? lookup?
  split
  · simp
  · rfl

theorem cleared_linked (m : Module) : m.Linked m.cleared :=
  ⟨rfl, rfl, rfl, rfl, by simp, fun c => ⟨[], [], block?_cleared m c⟩⟩

theorem connect_linked (m : Module) : m.Linked (Builder.connect m).1 :=
  (cleared_linked m).trans (Builder.connectFrom_spec _ _).1

/-- **The edges that are entered** are those of the terminators. -/
theorem connect_spec (hid : ∀ {b k}, m.block? b = some k → k.id = b) (h : Builder.connect m = (m', none))
    (hk : m'.block? b = some k) : k.preds.Nodup ∧ (∀ p, p ∈ k.preds ↔ ∃ kp, m'.block? p = some kp ∧ b ∈ kp.term.edges) ∧
      ∀ x ∈ k.succs, x ∈ k.term.edges := by
  have hcl {c : BlockId} {q : Block} (hq : m.cleared.block? c = some q) : q.id = c ∧ q.preds = [] ∧ q.succs = [] := by
    rw [block?_cleared] at hq
    obtain ⟨k0, hk0, rfl⟩ := Option.map_eq_some_iff.1 hq
    have hid0 := hid hk0
    exact ⟨hid0, rfl, rfl⟩
  obtain ⟨hl, -, hspec⟩ := Builder.connectFrom_spec m.cleared.blocks.toList m.cleared
  change Builder.connectFrom m.cleared.blocks.toList m.cleared = _ at h
  rw [h] at hl hspec
  dsimp only at hl hspec
  obtain ⟨k0, hk0, _, _, hk'⟩ := hl.some_of_block hk
  obtain ⟨k1, hk1, hpreds, hsuccs⟩ := hspec rfl hk0
  obtain rfl := Option.mem_unique hk hk1
  rw [(hcl hk0).2.1, nil_append] at hpreds
  rw [(hcl hk0).2.2] at hsuccs
  rw [hpreds]
  refine ⟨(nodup_ids fun hq => (hcl hq).1).sublist (filter_sublist.map _), fun p => ⟨fun hp => ?_, ?_⟩, fun x hx => ?_⟩
  · obtain ⟨q, hq, rfl⟩ := mem_map.1 hp
    obtain ⟨hq, hsucc⟩ := mem_filter.1 hq
    obtain ⟨c, hc⟩ := (mem_blocks_iff (m := m.cleared)).1 hq
    obtain rfl := (hcl hc).1
    obtain ⟨_, _, hc'⟩ := hl.block_of_some hc
    exact ⟨_, hc', ((q.term.successors_spec.2 b).1 (by simpa using hsucc)).1⟩
  · rintro ⟨kp, hkp, hedge⟩
    obtain ⟨q, hq, _, _, rfl⟩ := hl.some_of_block hkp
    have hne : b ≠ noBlock := by
      have := (block?_lt hk).1
      unfold noBlock
      lia
    refine mem_map.2 ⟨q, mem_filter.2 ⟨block?_mem hq, ?_⟩, (hcl hq).1⟩
    simpa using (q.term.successors_spec.2 b).2 ⟨hedge, hne⟩
  · rcases hsuccs with hs | ⟨q, hq, rfl, hs⟩
    · rw [hs] at hx
      cases hx
    · obtain ⟨c, hc⟩ := (mem_blocks_iff (m := m.cleared)).1 hq
      obtain rfl := (hcl hc).1
      obtain rfl := Option.mem_unique hk0 hc
      rw [hs] at hx
      rw [hk']
      exact ((k0.term.successors_spec.2 x).1 hx).1

/-- **The edges of a sound module can be entered**, and each continuation block has one predecessor. -/
theorem connect_sound (hs : m.Sound) :
    ∃ m', Builder.connect m = (m', none) ∧ m.Linked m' ∧
      ∀ {p b kp kb u}, m'.block? p = some kp → kp.term = .mayUnwind b u → m'.block? b = some kb →
        kb.kind = .continue → kb.preds = [p] := by
  have hsc := (cleared_linked m).sound hs
  have hnone : (Builder.connect m).2 = none := (Builder.connectFrom_spec _ _).2.1.2 fun k hk s hmem => by
    obtain ⟨b, hb⟩ := mem_blocks_iff.1 hk
    obtain ⟨hmem, hne⟩ := (k.term.successors_spec.2 s).1 hmem
    exact hasBlock_iff.2 ((hsc.block hb).term.edge hmem hne)
  have hl := connect_linked m
  have h : Builder.connect m = ((Builder.connect m).1, none) := Prod.ext rfl hnone
  refine ⟨_, h, hl, fun {p b kp kb u} hp ht hb hkind => ?_⟩
  have hs' := hl.sound hs
  obtain ⟨hnodup, hpreds, -⟩ := connect_spec (fun hk => (hs.block hk).id) h hb
  -- the predecessors are distinct and all equal to `p`, which is one of them
  have hall : ∀ q ∈ kb.preds, q = p := fun q hq => by
    obtain ⟨kq, hkq, hedge⟩ := (hpreds q).1 hq
    obtain ⟨u', hu', hcont⟩ := (hs'.block hkq).term.continues hedge hb hkind
    exact hs'.joined hkq hp hu' ht hcont
  have hmem : p ∈ kb.preds := (hpreds p).2 ⟨kp, hp, by rw [ht]; exact mem_cons_self⟩
  match kb.preds, hnodup, hall, hmem with
  | [q], _, hall, _ => rw [hall q mem_cons_self]
  | q :: r :: l, hnodup, hall, _ =>
    have hq := hall q (by simp)
    have hr := hall r (by simp)
    simp [hq, hr] at hnodup

/-! ## The verifier -/

/-- Every continuation block knows the block before it. -/
def Joined (m : Module) : Prop :=
  ∀ {p b kp kb u}, m.block? p = some kp → kp.term = .mayUnwind b u → m.block? b = some kb →
    kb.kind = .continue → kb.preds = [p]

theorem verifyInsts_sound (hb : m.SoundBlock b k) (hpad : k.kind = .landingpad → ∃ d, k.pad = some d) :
    ∀ (before after defined : List ValueId), k.insts.toList = before ++ after →
      (∀ a ∈ before, a ∈ defined) → (∀ a, m.AvailAbove b a → a ∈ defined) →
      ∃ d, m.verifyInsts k before.length after defined = .ok d ∧ (∀ a ∈ defined, a ∈ d) ∧
        ∀ a ∈ after, a ∈ d
  | _, [], defined, _, _, _ => ⟨defined, rfl, fun _ h => h, by simp⟩
  | before, v :: after, defined, hk, hbefore, habove => by
    obtain ⟨i, hi, hs⟩ := hb.inst hk
    have hargs : i.args.find? (fun a => !defined.contains a) = none := by
      rw [find?_eq_none]
      intro a ha
      have : a ∈ defined := (hs.args a ha).elim (hbefore a) (habove a)
      simpa using this
    have hlp : ¬ (i.op = .landingpad ∧ (before.length ≠ 0 ∨ k.pad.isNone = true)) := by
      rintro ⟨hop, h⟩
      obtain ⟨rfl, hkind⟩ := hs.landingpad hop
      obtain ⟨d, hd⟩ := hpad hkind
      simp [hd] at h
    have hk' : k.insts.toList = (before ++ [v]) ++ after := by simp [hk]
    obtain ⟨d, hd, hsub, hafter⟩ := verifyInsts_sound hb hpad (before ++ [v]) after (v :: defined) hk'
      (by intro a ha
          rcases mem_append.1 ha with ha | ha
          · exact mem_cons_of_mem _ (hbefore a ha)
          · exact mem_cons.2 (.inl (mem_singleton.1 ha)))
      (fun a ha => mem_cons_of_mem _ (habove a ha))
    refine ⟨d, ?_, fun a ha => hsub a (mem_cons_of_mem _ ha), fun a ha => ?_⟩
    · simp only [verifyInsts, hi, hargs, if_neg hlp]
      rw [if_neg (by rw [hs.block, hb.id]; simp)]
      simpa using hd
    · rcases mem_cons.1 ha with rfl | ha
      · exact hsub a mem_cons_self
      · exact hafter a ha

theorem verifyUse_sound {defined : List ValueId} {v : ValueId} {ty : Ty} (h : m.Use b v ty)
    (hd : v ∈ defined) : m.verifyUse defined v ty = .ok () := by
  obtain ⟨-, i, hi, rfl⟩ := h
  simp [verifyUse, hd, hi]

theorem Target.hasBlock {t : BlockId} (h : m.Target t) : m.hasBlock t = true :=
  let ⟨k, hk, _⟩ := h
  hasBlock_iff.2 ⟨k, hk⟩

theorem verifyTerm_sound {defined : List ValueId} (hb : m.SoundBlock b k) (hk : m.block? b = some k)
    (hc : m.Complete) (hd : ∀ v, m.Avail b v → v ∈ defined) : m.verifyTerm k defined = .ok () := by
  have hterm := hb.term
  have isPad {u : BlockId} (hu : m.UnwindDest u) : m.isPad u = true := by
    obtain ⟨ku, hku, hkind⟩ := hu
    obtain ⟨d, hd⟩ := hc.pad hku hkind
    simp [isPad, hku, hd]
  unfold verifyTerm
  cases ht : k.term <;> rw [ht] at hterm <;> dsimp only
  case none => exact absurd ht (hc.term hk)
  case goto t => rw [if_pos hterm.hasBlock]
  case «fallthrough» t => rw [if_pos hterm.hasBlock]
  case condBr v t e =>
    obtain ⟨h1, h2, hu⟩ := hterm
    rw [if_pos (by rw [h1.hasBlock, h2.hasBlock]; rfl)]
    exact verifyUse_sound hu (hd v hu.1)
  case switch v d cs =>
    obtain ⟨hdef, hcases, hu⟩ := hterm
    have hbad : ¬ (d ≠ noBlock ∧ (!m.hasBlock d) = true) := by
      rintro ⟨hne, hno⟩
      rw [(hdef hne).hasBlock] at hno
      cases hno
    have hfind : cs.find? (fun c => !m.hasBlock c.target) = none := by
      rw [find?_eq_none]
      intro c hmem
      rw [(hcases c hmem).hasBlock]
      simp
    rw [if_neg hbad, hfind]
    exact verifyUse_sound hu (hd v hu.1)
  case ret v =>
    obtain ⟨hvoid, hval⟩ := hterm
    by_cases hv : v = noValue
    · rw [if_neg (by simpa using hv), if_pos (hvoid hv)]
    · rw [if_pos hv]
      exact verifyUse_sound (hval hv) (hd v (hval hv).1)
  case throw v u =>
    obtain ⟨hu, hdest⟩ := hterm
    rw [verifyUse_sound hu (hd v hu.1)]
    have hbad : ¬ (u ≠ noBlock ∧ (!m.isPad u) = true) := by
      rintro ⟨hne, hno⟩
      rw [isPad (hdest hne)] at hno
      cases hno
    simp only [if_neg hbad]
    rfl
  case mayUnwind t u =>
    obtain ⟨h1, hdest, v, i, hv, hi, hthrow⟩ := hterm
    have ht : m.hasBlock t = true := by
      rcases h1 with h1 | ⟨-, kt, hkt, -⟩
      · exact h1.hasBlock
      · exact hasBlock_iff.2 ⟨kt, hkt⟩
    have hlast : k.last = v := by simp [Block.last, hv]
    rw [if_pos (by rw [ht, isPad (hdest (hc.unwind hk ‹_›))]; rfl), hlast, hi]
    simp [hthrow]
  case resume v => exact verifyUse_sound hterm (hd v hterm.1)
  case unknown n => exact hterm.elim

theorem verifyPad_sound (hb : m.SoundBlock b k) : m.verifyPad k = .ok () := by
  unfold verifyPad
  cases hd : k.pad with
  | none => rfl
  | some d =>
    obtain ⟨⟨v, i, hv, hi, hop⟩, hclauses⟩ := hb.pad hd
    have hfirst : (k.insts[0]?.bind m.inst?).any (·.op = .landingpad) = true := by
      simp [hv, hi, hop]
    have hall : d.clauses.all (fun c => m.hasBlock c.target) = true :=
      all_eq_true.2 fun c hc => (hclauses c hc).hasBlock
    simp only [hfirst, hall]
    rfl

/-- One block passes, and what it defines covers what is available at its end. -/
theorem verifyBlock_sound {available : List ValueId} (hs : m.Sound) (hc : m.Complete)
    (hk : m.block? b = some k) (ha : ∀ v, m.AvailAbove b v → v ∈ available) :
    ∃ d, m.verifyBlock k available = .ok d ∧ ∀ v, m.Avail b v → v ∈ d := by
  have hb := hs.block hk
  obtain ⟨d, hd, hsub, hown⟩ := verifyInsts_sound hb (hc.pad hk) [] k.insts.toList available rfl
    (by simp) ha
  have hcover : ∀ v, m.Avail b v → v ∈ d := by
    intro v hv
    rcases hv.own_or_above hk with hmem | habove
    · exact hown v hmem
    · exact hsub v (ha v habove)
  refine ⟨d, ?_, hcover⟩
  have hd : m.verifyInsts k 0 k.insts.toList available = .ok d := hd
  unfold verifyBlock
  rw [hd]
  change (do m.verifyTerm k d; m.verifyPad k; return d) = _
  rw [verifyTerm_sound hb hk hc hcover, verifyPad_sound hb]
  rfl

/-- The blocks from a position on pass, if the ends of those before cover what is available there. -/
theorem verifyBlocks_sound (hs : m.Sound) (hc : m.Complete) (hj : m.Joined) :
    ∀ (rest : List Block) (ends : Array (List ValueId)),
      (∀ n : Nat, rest[n]? = m.blocks[ends.size + n]?) →
      (∀ p d, lookup? ends p = some d → ∀ v, m.Avail p v → v ∈ d) →
      m.verifyBlocks ends rest = .ok ()
  | [], _, _, _ => rfl
  | k :: rest, ends, hrest, hends => by
    have hk : m.block? (ends.size : Int) = some k := by
      rw [block?, lookup?_ofNat]
      simpa using (hrest 0).symm
    have havail : ∀ v, m.AvailAbove ends.size v → v ∈ availableAt ends k := by
      rintro v ⟨p, kp, kb, u, hp, ht, hkb, hkind, hv⟩
      obtain rfl : k = kb := Option.mem_unique hk hkb
      obtain ⟨u', hu', hlt, -⟩ := (hs.block hp).term.continues (by rw [ht]; exact mem_cons_self) hkb hkind
      obtain ⟨d, hd⟩ := exists_lookup? (a := ends) (block?_lt hp).1 hlt
      simp only [availableAt, hkind, hj hp ht hkb hkind, (hs.block hk).id, if_pos hlt, hd]
      exact hends p d hd v hv
    obtain ⟨d, hd, hcover⟩ := verifyBlock_sound hs hc hk havail
    rw [verifyBlocks, hd]
    refine verifyBlocks_sound hs hc hj rest (ends.push d) (fun n => ?_) fun p d' hp v hv => ?_
    · have h := hrest (n + 1)
      rw [getElem?_cons_succ] at h
      rw [h, Array.size_push]
      congr 1
      omega
    rw [lookup?_push] at hp
    split at hp
    · subst p
      cases hp
      exact hcover v hv
    · exact hends p d' hp v hv

/-- **The verifier accepts a sound and complete module.** -/
theorem verify_sound (hs : m.Sound) (hc : m.Complete) (hj : m.Joined)
    (he : ∃ k, m.block? m.entry = some k) : m.verify = .ok () := by
  obtain ⟨k, hk⟩ := he
  have hlt := block?_lt hk
  have hbad : ¬ (m.entry = noBlock ∨ (m.blocks.size : Int) ≤ m.entry) := by
    unfold noBlock
    lia
  unfold verify
  rw [if_neg hbad]
  exact verifyBlocks_sound hs hc hj _ _ (fun n => by simp) (fun p d hp => by simp [lookup?] at hp)

end Module

/-- **A sound and complete module without a recorded mistake can be frozen.** The frozen module has the
same code. -/
theorem Builder.freeze_sound {b : Builder} (he : b.error = none) (hs : b.mod.Sound) (hc : b.mod.Complete)
    (hentry : ∃ k, b.mod.block? b.mod.entry = some k) :
    ∃ m, b.freeze.1 = .ok m ∧ m.frozen = true ∧ b.mod.Linked m := by
  obtain ⟨m, hcon, hl, hj⟩ := connect_sound hs
  obtain ⟨k, hk⟩ := hentry
  obtain ⟨preds, succs, hk'⟩ := hl.block_of_some hk
  have hentry : m.entry = b.mod.entry := congrArg Header.entry hl.header
  have hv : m.verify = .ok () := verify_sound (hl.sound hs) (hl.complete hc) hj ⟨_, hentry ▸ hk'⟩
  refine ⟨{ m with frozen := true }, ?_, rfl, ?_⟩
  · simp only [freeze, he, hcon, hv]
  · exact { hl with }

end Bytelift.Ir
