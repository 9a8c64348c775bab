import Bytelift.Proofs.Lift.Leaving
import Bytelift.Proofs.Simulation.Steps

/-!
# Allocations and loops

Objects append straight-line code. An array of several dimensions is built by nested loops, for which the
cursor moves through new IR blocks: the values that could be used before are out of reach behind them,
which is why the operand stack goes through its slots.

Main definitions:
* `Moves`: a step from one IR block to another within a bytecode block;
* `Closes`, `Opens`: the block at the cursor is closed, and the cursor is put into another one;
* `Stores`: the slots of a level.

Results:
* `Ready.liftNew`: an object may be allocated;
* `Working.closeLoopBlock`: a block of a loop may be closed;
* `Working.newLoopBlocks`: the blocks of a loop are created.
-/

namespace Bytelift.Lift

open Ir Context List

variable {cx : Context} {B : CodeBlock} {O : Rest} {s s' s'' : State} {v : ValueId} {ty : Ty} {b : BlockId}
  {L : List BlockId} {bci : Int}

/-! ## Straight-line allocations -/

theorem wp_poolClass {use : Text} {i : Instruction} {Q : ClassRef → State → Prop} (hu : use ∈ Reason.poolUses)
    (h : ∀ c, cx.method.pool.getClass i.poolIndex = .ok c → Q c s) : Wp (cx.poolClass use i) s Q := by
  unfold poolClass
  split
  · exact h _ ‹_›
  · exact wp_failAt hu

theorem Working.zeroField (h : Working cx B O s) (bci : Int) {obj : ValueId}
    (hobj : s.mod.Use s.cursor.block obj ty) (f : FieldInfo) :
    Wp (cx.zeroField bci obj f) s fun _ s' => Appends cx B O s s' := by
  unfold Context.zeroField
  split
  · exact wp_failAt trivial
  rename_i ft _
  refine (h.zeros (Ty.ofKind ft.kind)).bind fun z s1 ⟨ha, hz, _⟩ => ?_
  exact (ha.working.emit (.binary rfl (by simp) (ha.proceeds.use hobj) hz)).bind fun _ s2 hs2 => ha.trans hs2.1

theorem Ready.liftNew (h : Ready cx B O s) (i : Instruction) :
    Wp (cx.liftNew i) s fun _ s' => Advances cx B O s s' := by
  refine wp_bind.2 (wp_poolClass (by decide) fun cls _ => wp_bind.2 (wp_refuseIf trivial fun _ => ?_))
  refine (h.emitPure rfl (by simp)).bind fun obj s1 ⟨ha1, hobj⟩ => ?_
  refine (ha1.working.markNonNull obj).bind fun _ s2 hm2 => ?_
  have hobj2 := hm2.proceeds.use hobj
  have hloop : Wp (cls.fields.forM (cx.zeroField i.bci obj)) s2 fun _ s' => Appends cx B O s2 s' := by
    refine wp_forM (I := fun _ s' => Appends cx B O s2 s') (fun f _ s3 ha3 => ?_) hm2.working.appends
    exact (ha3.working.zeroField i.bci (ha3.proceeds.use hobj2) f).mono fun _ s4 ha4 => ha3.trans ha4
  refine hloop.bind fun _ s3 ha3 => ?_
  have ha := (ha1.trans hm2).trans ha3
  exact ((h.appends ha).push (ha3.proceeds.use hobj2)).mono fun _ s4 hs4 => (h.advance ha).trans hs4

theorem wp_elementType {desc : Text} {Q : FieldType → State → Prop} (h : ∀ ft, Q ft s) :
    Wp (elementType desc) s Q := by
  unfold elementType
  split
  · exact wp_failHere trivial
  · split
    · exact wp_failHere trivial
    · exact wp_failHere trivial
    · exact h _

/-! ## Loops -/

/-- A new block of a loop over the bytecode block. -/
def Blank (B : CodeBlock) (s : State) (b : BlockId) : Prop :=
  ∃ k, s.mod.block? b = some k ∧ k.kind = .loop ∧ k.insts = #[] ∧ (B.start : Int) ≤ k.start ∧ k.start < B.stop

theorem Blank.loopBlock (h : Blank B s b) : LoopBlock s b := by
  obtain ⟨k, hk, hkind, -⟩ := h
  exact ⟨k, hk, hkind⟩

theorem LoopBlock.target (h : LoopBlock s b) : s.mod.Target b := by
  obtain ⟨k, hk, hkind⟩ := h
  exact ⟨k, hk, by rw [hkind]; decide⟩

/-- A step from one IR block to another within a bytecode block. -/
structure Moves (L : List BlockId) (s s' : State) : Prop where
  evolves : Evolves s s'
  others : ∀ b ∈ L, s'.mod.block? b = s.mod.block? b
  bci : s'.cursor.bci = s.cursor.bci
  done : s'.cursor.done = s.cursor.done

theorem Moves.trans (h : Moves L s s') (h' : Moves L s' s'') : Moves L s s'' :=
  ⟨h.evolves.trans h'.evolves, fun b hb => (h'.others b hb).trans (h.others b hb), h'.bci.trans h.bci,
    h'.done.trans h.done⟩

theorem Moves.subset {L' : List BlockId} (h : Moves L s s') (hL : ∀ b ∈ L', b ∈ L) : Moves L' s s' :=
  { h with others := fun b hb => h.others b (hL b hb) }

theorem Appends.moves (h : Appends cx B O s s') : Moves O.blocks s s' :=
  ⟨h.proceeds.evolves, h.others, h.proceeds.bci, h.proceeds.done⟩

theorem Blank.moves (h : Blank B s b) (hm : Moves L s s') (hb : b ∈ L) : Blank B s' b := by
  obtain ⟨k, hk, hrest⟩ := h
  exact ⟨k, (hm.others b hb).trans hk, hrest⟩

/-- The block at the cursor is closed, and the cursor is put into another one. -/
structure Closes (cx : Context) (O : Rest) (b : BlockId) (s s' : State) : Prop where
  good : Good cx O.hand s'
  moves : Moves O.blocks s s'
  owner : s'.cursor.owner = O.owner
  block : s'.cursor.block = b
  pending : s'.cursor.pending = none

theorem Appends.closes (h : Appends cx B O s s') (h' : Closes cx O b s' s'') : Closes cx O b s s'' :=
  { h' with moves := h.moves.trans h'.moves }

theorem Closes.moveTo (h : Closes cx O b s s') (c : BlockId) :
    Closes cx O c s { s' with cursor := { s'.cursor with block := c } } :=
  have hs : SameTables s' { s' with cursor := { s'.cursor with block := c } } := .put _
  ⟨h.good.congr hs, ⟨h.moves.evolves.trans hs.evolves, h.moves.others, h.moves.bci, h.moves.done⟩, h.owner, rfl,
    h.pending⟩

/-- The cursor is put at the beginning of a block of a loop. -/
structure Opens (cx : Context) (B : CodeBlock) (O : Rest) (b : BlockId) (s s' : State) : Prop where
  working : Working cx B O s'
  moves : Moves O.blocks s s'
  block : s'.cursor.block = b
  blank : Blank B s' b

theorem Closes.opens (h : Closes cx (O.add b) b s s') (hw : Working cx B (O.add b) s) (hblank : Blank B s b) :
    Opens cx B O b s s' := by
  have hblank' := hblank.moves h.moves mem_cons_self
  refine ⟨⟨h.block ▸ h.good, hw.tiled, hw.mem, ?_, h.moves.bci ▸ hw.here, hw.owner.mono h.moves.evolves (h.owner.trans hw.owner.1.symm)⟩,
    h.moves.subset fun c hc => mem_cons_of_mem _ hc, h.block, hblank'⟩
  obtain ⟨k, hk, hkind, hnil, hstart⟩ := hblank'
  refine ⟨k, h.block ▸ hk, ⟨by rw [hkind]; rfl, hstart⟩, ?_⟩
  rw [h.pending]
  intro v j hv
  simp [hnil] at hv

/-- **A block of a loop may be closed**, if no instruction waits in it. -/
theorem Working.closeLoopBlock (h : Working cx B O s) (hp : s.cursor.pending = none) {k : Block}
    (hk : s.mod.block? s.cursor.block = some k) {t : Terminator} (hne : t ≠ .none)
    (ht : Steers (fun _ => True) t) (hterm : s.mod.SoundTerm s.cursor.block k t)
    (hcode : CodeTerm cx s s.cursor.block k.start k.insts.back? t) :
    Closes cx O s.cursor.block s (s.ended s.cursor.block t) := by
  obtain ⟨k', hk', hopen, hw, hwait⟩ := h.isOpen
  obtain rfl := Option.mem_unique hk hk'
  rw [hp] at hwait
  have hc : CodeClosable cx (O.add s.cursor.block).hand [] s s.cursor.block k t := {
    ne := hne
    term := hterm
    code := hcode
    join := fun hx => absurd hx (ht.ne_mayUnwind _ _)
    unwinds := fun hv hj hop hprot => by
      rw [hwait hv hj hop] at hprot
      cases hprot
    split := fun hx => absurd hx (ht.ne_mayUnwind _ _)
    caught := ht.unwind
    sites := fun x hx => by cases hx
    settled := fun hf => absurd hf ht.not_faultAt
    ending := fun hx => absurd hx (ht.ne_switch _ _)
    marked := fun hx => absurd hx ht.ne_unreachable }
  have hkeep := keeps_setTerm (t := t) hk hopen h.not_mem
  exact ⟨h.good.close (.refl _) hk (hc.closable h.good rfl hk hw.1), ⟨hkeep.evolves, hkeep.blocks, rfl, rfl⟩,
    h.owner.1, rfl, hp⟩

/-- A slot is a temporary of a level. -/
def LevelTemp (s : State) (bci : Int) (number : Nat) (part : Text) (slot : Slot) : Prop :=
  ∃ n : Nat, slot = ⟨.temp, n⟩ ∧ s.mod.temps[n]? = some (Context.levelTemp bci number part)

section LevelTemps

variable {bci : Int} {number : Nat} {part : Text} {slot : Slot}

theorem LevelTemp.mono (he : Evolves s s') (h : LevelTemp s bci number part slot) : LevelTemp s' bci number part slot := by
  obtain ⟨n, hs, hn⟩ := h
  exact ⟨n, hs, he.module.temp hn⟩

theorem LevelTemp.nonneg (h : LevelTemp s bci number part slot) : 0 ≤ slot.index := by
  obtain ⟨n, rfl, -⟩ := h
  exact Int.natCast_nonneg n

theorem LevelTemp.space (h : LevelTemp s bci number part slot) : slot.space = .temp := by
  obtain ⟨n, rfl, -⟩ := h
  rfl

theorem LevelTemp.storable {d : Nat} (h : LevelTemp s bci number part slot) : Storable d s slot := by
  obtain ⟨n, rfl, hn⟩ := h
  exact (PlainTemp.of_head hn (head?_levelTemp ..) (by decide)).storable

end LevelTemps

/-- The slots of a level are its temporaries. -/
structure Stores (s : State) (bci : Int) (level : Context.Level) : Prop where
  length : LevelTemp s bci level.number "_n" level.length
  array : LevelTemp s bci level.number "_a" level.array
  index : LevelTemp s bci level.number "_i" level.index

theorem Stores.mono (he : Evolves s s') {level : Level} (h : Stores s bci level) : Stores s' bci level :=
  ⟨h.length.mono he, h.array.mono he, h.index.mono he⟩

theorem Working.perm (h : Working cx B O s) (hL : O.blocks.Perm L) : Working cx B { O with blocks := L } s :=
  { h with good := h.good.perm (hL.cons _) }

theorem Context.Level.label_ne_padLabel (level : Level) (bci : Int) (part : Text) {c : Int} :
    level.label bci part ≠ padLabel c :=
  bciLabel_ne_padLabel rfl rfl (by decide)

theorem Working.newLoopBlock (h : Working cx B O s) {label : Text} (hlabel : ∀ {c}, label ≠ padLabel c)
    (hbci : (B.start : Int) ≤ bci ∧ bci < B.stop) :
    Wp (newBlock label bci .loop) s fun b s' => Working cx B (O.add b) s' ∧ Blank B s' b ∧
      Moves (s.cursor.block :: O.blocks) s s' ∧ s'.cursor = s.cursor := by
  refine h.good.blankBlock (by nofun) hlabel fun s' hs' hg hkeep hb => ?_
  subst hs'
  obtain ⟨k, hk, hw, hwait⟩ := h.block
  exact ⟨⟨hg.perm (Perm.swap _ _ _), h.tiled, h.mem, ⟨k, (hkeep.blocks _ mem_cons_self).trans hk, hw, hwait⟩, h.here,
    h.owner.mono hkeep.evolves⟩, ⟨_, hb, rfl, rfl, hbci⟩, ⟨hkeep.evolves, hkeep.blocks, rfl, rfl⟩, rfl⟩

theorem Working.newLoopBlocks (h : Working cx B O s) (hbci : (B.start : Int) ≤ bci ∧ bci < B.stop)
    (level : Level) {k : BlockId → BlockId → BlockId → LiftM Unit} {Q : Unit → State → Prop}
    (hk : ∀ head body exit s', Working cx B (((O.add exit).add body).add head) s' → Blank B s' head → Blank B s' body →
      Blank B s' exit → Moves (s.cursor.block :: O.blocks) s s' → s'.cursor = s.cursor → Wp (k head body exit) s' Q) :
    Wp (do
      let head ← newBlock (level.label bci "_head") bci .loop
      let body ← newBlock (level.label bci "_body") bci .loop
      let exit ← newBlock (level.label bci "_exit") bci .loop
      k head body exit) s Q := by
  refine (h.newLoopBlock (level.label_ne_padLabel bci _) hbci).bind fun head s1 ⟨hw1, hhead, hm1, hc1⟩ => ?_
  refine (hw1.newLoopBlock (level.label_ne_padLabel bci _) hbci).bind fun body s2 ⟨hw2, hbody, hm2, hc2⟩ => ?_
  refine (hw2.newLoopBlock (level.label_ne_padLabel bci _) hbci).bind fun exit s3 ⟨hw3, hexit, hm3, hc3⟩ => ?_
  have hO : (exit :: body :: head :: O.blocks).Perm (head :: body :: exit :: O.blocks) :=
    (Perm.swap _ _ _).trans (((Perm.swap _ _ _).cons _).trans (Perm.swap _ _ _))
  rw [hc2, hc1] at hm3
  rw [hc1] at hm2
  refine hk head body exit s3 (hw3.perm hO) ((hhead.moves hm2 (by simp)).moves hm3 (by simp))
    (hbody.moves hm3 (by simp)) hexit ?_ ((hc3.trans hc2).trans hc1)
  refine hm1.trans ((hm2.subset fun c hc => ?_).trans (hm3.subset fun c hc => ?_)) <;>
    rcases mem_cons.1 hc with rfl | hc <;> simp [*]

/-- An instruction is lifted. Values from before it may be out of reach, but for those on the stack. -/
structure Lifts (cx : Context) (B : CodeBlock) (O : Rest) (s s' : State) : Prop where
  ready : Ready cx B O s'
  evolves : Evolves s s'
  bci : s'.cursor.bci = s.cursor.bci
  done : s'.cursor.done = s.cursor.done

theorem Advances.lifts (h : Advances cx B O s s') : Lifts cx B O s s' :=
  ⟨h.ready, h.proceeds.evolves, h.proceeds.bci, h.proceeds.done⟩

theorem Advances.then (h : Advances cx B O s s') (h' : Lifts cx B O s' s'') : Lifts cx B O s s'' :=
  ⟨h'.ready, h.proceeds.evolves.trans h'.evolves, h'.bci.trans h.proceeds.bci, h'.done.trans h.proceeds.done⟩

end Bytelift.Lift
