import Bytelift.Proofs.Lift.Outcome
import Bytelift.Proofs.Lift.Tables

/-!
# The block being lifted

Specifications of the steps that work on the block at the cursor. `Working` says that the cursor stands
in an open IR block of a bytecode block, and `Ready` that the values on the symbolic stack can be used
there. Every step that appends code keeps both, and what could be used before it can be used behind it
(`Proceeds`), also when an instruction that may throw has split the IR block.

Results:
* `Working.terminate`: **a bytecode block may be ended as its last instruction says**.
-/

namespace Bytelift.Lift

open Ir List Module Context

variable {cx : Context} {B : CodeBlock} {O : Rest} {s s' s'' : State} {k : Block} {i : Inst} {t : Terminator}
  {b : BlockId} {Q : PUnit → State → Prop} {slot : Slot}

/-! ## What the cursor stands for -/

/-- The last instruction of a block that waits to end it, if there is one. -/
def Waits (cx : Context) (B : CodeBlock) (s : State) (k : Block) : Option Int → Prop
  | none => ∀ {v j}, k.insts.back? = some v → s.mod.inst? v = some j → j.op.mayThrow = true →
    cx.table.isProtected j.bci = false
  | some c => (B.start : Int) ≤ c ∧ c < B.stop ∧ cx.table.isProtected c = true ∧
    ∃ v j, k.insts.back? = some v ∧ s.mod.inst? v = some j ∧ j.op.mayThrow = true ∧ j.bci = c

/-- A block that holds code of a bytecode block. -/
def Within (B : CodeBlock) (k : Block) : Prop :=
  holdsCode k.kind = true ∧ (B.start : Int) ≤ k.start ∧ k.start < B.stop

/-- What is at hand beside the block at the cursor. -/
structure Rest where
  /-- Blocks that have no terminator yet. -/
  blocks : List BlockId := []
  /-- Bytecode blocks of which the lifting has begun. -/
  begun : List Int := []
  /-- The size of a stack that is being stored and not counted yet. -/
  depth : Nat := 0
  /-- The owner of the bytecode block. -/
  owner : Owner := []

namespace Rest

abbrev hand (O : Rest) : Hand := { blocks := O.blocks, begun := O.begun, depth := O.depth }

/-- A further block is open. -/
abbrev add (O : Rest) (b : BlockId) : Rest := { O with blocks := b :: O.blocks }

/-- The stack at the cursor is to be stored. -/
abbrev deep (O : Rest) (s : State) : Rest := { O with depth := max O.depth s.cursor.stack.length }

end Rest

/-- The cursor stands in code of the owner with which a bytecode block is scheduled. -/
def Belongs (B : CodeBlock) (owner : Owner) (s : State) : Prop :=
  s.cursor.owner = owner ∧ ∃ e, ((B.start : Int), e) ∈ s.entries ∧ e.owner = owner

theorem Belongs.mono {owner : Owner} (h : Belongs B owner s) (he : Evolves s s')
    (hc : s'.cursor.owner = s.cursor.owner := by rfl) : Belongs B owner s' := by
  obtain ⟨hown, e, hmem, heq⟩ := h
  exact ⟨hc.trans hown, e, he.entries.subset hmem, heq⟩

/-- The cursor stands in an open IR block of a bytecode block, beside `O`. -/
structure Working (cx : Context) (B : CodeBlock) (O : Rest) (s : State) : Prop where
  good : Good cx (O.add s.cursor.block).hand s
  tiled : cx.partition.Tiled
  mem : B ∈ cx.partition.blocks
  block : ∃ k, s.mod.block? s.cursor.block = some k ∧ Within B k ∧ Waits cx B s k s.cursor.pending
  here : (B.start : Int) ≤ s.cursor.bci ∧ s.cursor.bci < B.stop
  owner : Belongs B O.owner s

/-- The cursor stands in an open IR block in which the values on the stack can be used. -/
structure Ready (cx : Context) (B : CodeBlock) (O : Rest) (s : State) : Prop extends
    Working cx B O s where
  stack : ∀ e ∈ s.cursor.stack, s.mod.Use s.cursor.block e.id e.ty

/-- A step within a bytecode block: what could be used can still be used. -/
structure Proceeds (s s' : State) : Prop where
  evolves : Evolves s s'
  use : ∀ {v ty}, s.mod.Use s.cursor.block v ty → s'.mod.Use s'.cursor.block v ty
  bci : s'.cursor.bci = s.cursor.bci
  done : s'.cursor.done = s.cursor.done

theorem Proceeds.refl (s : State) : Proceeds s s := ⟨.refl s, fun h => h, rfl, rfl⟩

theorem Proceeds.trans (h : Proceeds s s') (h' : Proceeds s' s'') : Proceeds s s'' :=
  ⟨h.evolves.trans h'.evolves, fun hu => h'.use (h.use hu), h'.bci.trans h.bci, h'.done.trans h.done⟩

theorem Working.isOpen (h : Working cx B O s) : ∃ k, s.mod.block? s.cursor.block = some k ∧ k.term = .none ∧
    Within B k ∧ Waits cx B s k s.cursor.pending := by
  obtain ⟨k, hk, hrest⟩ := h.block
  obtain ⟨k', hk', ht⟩ := h.good.opened _ mem_cons_self
  obtain rfl := Option.mem_unique hk hk'
  exact ⟨k, hk, ht, hrest⟩

theorem Working.known (h : Working cx B O s) : Known s s.cursor.owner := by
  obtain ⟨hc, e, he, hown⟩ := h.owner
  rw [hc, ← hown]
  exact (h.good.scheduled he).1

theorem Working.congr (h : Working cx B O s) (hs : SameTables s s') (hb : s'.cursor.block = s.cursor.block)
    (hp : s'.cursor.pending = s.cursor.pending) (ho : s'.cursor.owner = s.cursor.owner)
    (hbci : (B.start : Int) ≤ s'.cursor.bci ∧ s'.cursor.bci < B.stop) : Working cx B O s' where
  good := by
    rw [hb]
    exact h.good.congr hs
  tiled := h.tiled
  mem := h.mem
  block := by
    obtain ⟨k, hk, hw, hwait⟩ := h.block
    have hm : s'.mod = s.mod := congrArg Builder.mod hs.builder
    refine ⟨k, by rw [hm, hb, hk], hw, ?_⟩
    rw [hp]
    unfold Waits at hwait ⊢
    rwa [hm]
  here := hbci
  owner := h.owner.mono hs.evolves ho

theorem Proceeds.congr (hs : SameTables s s') (hb : s'.cursor.block = s.cursor.block)
    (hbci : s'.cursor.bci = s.cursor.bci) (hd : s'.cursor.done = s.cursor.done) : Proceeds s s' :=
  ⟨hs.evolves, fun hu => by
    rw [hb, State.mod, hs.builder]
    exact hu, hbci, hd⟩

theorem Working.setDepth (h : Working cx B O s) {d : Nat} (hd : O.depth ≤ max s.maxStack d) :
    Working cx B { O with depth := d } s :=
  { h with good := h.good.setDepth hd }

/-- Code is appended at the cursor; the symbolic stack and the other open blocks stay as they are. -/
structure Appends (cx : Context) (B : CodeBlock) (O : Rest) (s s' : State) : Prop where
  working : Working cx B O s'
  proceeds : Proceeds s s'
  stack : s'.cursor.stack = s.cursor.stack
  others : ∀ b ∈ O.blocks, s'.mod.block? b = s.mod.block? b

theorem Appends.trans (h : Appends cx B O s s') (h' : Appends cx B O s' s'') : Appends cx B O s s'' :=
  ⟨h'.working, h.proceeds.trans h'.proceeds, h'.stack.trans h.stack,
    fun b hb => (h'.others b hb).trans (h.others b hb)⟩

theorem Ready.deep (h : Ready cx B O s) : Ready cx B (O.deep s) s :=
  { h with toWorking := h.setDepth (le_max_of_le_right (le_max_left _ _)) }

theorem Appends.room (h : Appends cx B (O.deep s) s s') : s'.cursor.stack.length ≤ max s'.maxStack (O.deep s).depth :=
  h.stack ▸ le_max_of_le_right (le_max_right _ _)

theorem Appends.counted (h : Appends cx B (O.deep s) s s') (hd : s.cursor.stack.length ≤ s'.maxStack) : Appends cx B O s s' :=
  { h with working := h.working.setDepth (max_le (le_max_right _ _) (le_max_of_le_left hd)) }

theorem Working.appends (h : Working cx B O s) : Appends cx B O s s := ⟨h, .refl s, rfl, fun _ _ => rfl⟩

theorem Working.not_mem (h : Working cx B O s) : s.cursor.block ∉ O.blocks := (nodup_cons.1 h.good.distinct).1

theorem Ready.appends (h : Ready cx B O s) (ha : Appends cx B O s s') : Ready cx B O s' :=
  ⟨ha.working, fun e he => ha.proceeds.use (h.stack e (ha.stack ▸ he))⟩

/-! ## Closing a block of code -/

/-- What has to hold of a terminator that closes a block of code. -/
structure CodeClosable (cx : Context) (o : Hand) (S : List Site) (s : State) (b : BlockId) (k : Block)
    (t : Terminator) : Prop extends Terminates cx o s b k t where
  code : CodeTerm cx s b k.start k.insts.back? t
  sites : ∀ x ∈ S, Known s x.owner ∧ x.block = b ∧ FaultAt cx s { k with term := t } x.bci
  settled : ∀ {c}, FaultAt cx s { k with term := t } c → ∃ x ∈ S, x.block = b ∧ x.bci = c
  marked : t = .unreachable → o.idle b := by nofun

/-- Blocks of code neither select exits nor route transfers, so that this is all. -/
theorem CodeClosable.closable {o : Hand} {S : List Site}
    (hc : CodeClosable cx o S s b k t) (h : Good cx o s) (ho : o.sites = []) (hk : s.mod.block? b = some k)
    (hcode : holdsCode k.kind = true) : Closable cx o S s b k t where
  toTerminates := hc.toTerminates
  code _ := hc.code
  select _ _ _ _ _ hkind := by
    rcases hkind with hkind | hkind <;> rw [hkind] at hcode <;> cases hcode
  throws _ := hcode
  kept := by simp [ho]
  sites x hx := .inr (hc.sites x hx)
  settled hf := by
    obtain ⟨x, hx, hxb, hxc⟩ := hc.settled hf
    exact .inl ⟨hc.caught, x, mem_append_right _ hx, hxb, hxc⟩
  leaf hx := by
    obtain ⟨k', hk', hkind⟩ := h.leafKind hx
    obtain rfl := Option.mem_unique hk hk'
    rw [hkind] at hcode
    cases hcode
  returns hx := by
    obtain ⟨k', hk', hkind⟩ := h.ret hx
    obtain rfl := Option.mem_unique hk hk'
    rw [hkind] at hcode
    cases hcode
  leads := ⟨hc.marked, fun hp => nomatch hcode.symm.trans hp⟩

theorem evolves_setTerm (hk : s.mod.block? b = some k) (ht : k.term = .none) : Evolves s (s.ended b t) :=
  .of_module rfl (Replaces.modifyBlock hk (.setTerm (absurd ht))).grows

theorem wp_changeBlock {f : Block → Block}
    (hk : s.mod.block? b = some k) (hq : Q () (s.change b f)) : Wp (changeBlock b f) s Q := by
  refine wp_bind.2 (wp_get.2 (wp_bind.2 (wp_require hk ?_)))
  exact hq

/-- The state behind an instruction that may throw and has ended its block; the site waits for its
landingpad. -/
abbrev State.faulting (s : State) (c : Int) (next : BlockId) : State :=
  { s.ended s.cursor.block (.mayUnwind next noBlock) with
    sites := s.sites ++ [⟨c, s.cursor.block, s.cursor.owner⟩]
    cursor := { s.cursor with pending := none } }

theorem Good.faulting {L P : List BlockId} {D : List Int} {d : Nat} {c : Int} {next : BlockId}
    (h : Good cx { blocks := L, begun := D, depth := d } s) (hL : L.Perm (s.cursor.block :: P))
    (hk : s.mod.block? s.cursor.block = some k) (hw : holdsCode k.kind = true)
    (hwait : Waits cx B s k (some c)) (hown : Known s s.cursor.owner)
    (hnext : s.mod.Target next ∨ s.mod.Continues s.cursor.block next)
    (hjoin : ∀ {q kq u' p}, s.mod.block? q = some kq → kq.term = .mayUnwind next u' → ¬ s.mod.Continues p next)
    (hcode : CodeTerm cx s s.cursor.block k.start k.insts.back? (.mayUnwind next noBlock)) :
    Good cx { blocks := P, begun := D, depth := d } (s.faulting c next) := by
  obtain ⟨-, -, hprot, v, j, hv, hj, hthrow, hbci⟩ := hwait
  have hfault : FaultAt cx s { k with term := .mayUnwind next noBlock } c := ⟨hprot, v, j, hv, hj, hthrow, hbci⟩
  have hc : CodeClosable cx { blocks := L, begun := D, depth := d } [⟨c, s.cursor.block, s.cursor.owner⟩] s s.cursor.block k
      (.mayUnwind next noBlock) := {
    ne := by simp
    term := ⟨hnext, absurd rfl, v, j, hv, hj, hthrow⟩
    code := hcode
    join := fun ht hq hqt => by
      cases ht
      exact hjoin hq hqt
    unwinds := fun _ _ _ _ => ⟨next, noBlock, rfl⟩
    split := fun _ => ⟨c, hfault⟩
    caught := rfl
    sites := fun x hx => by
      obtain rfl := mem_singleton.1 hx
      exact ⟨hown, rfl, hfault⟩
    settled := fun ⟨_, v', j', hv', hj', _, hbci'⟩ => by
      obtain rfl := Option.mem_unique hv hv'
      obtain rfl := Option.mem_unique hj hj'
      exact ⟨_, mem_singleton_self _, rfl, hbci.symm.trans hbci'⟩
    ending := fun ht => by cases ht }
  have hg := h.close hL hk (hc.closable h rfl hk hw)
  exact (hg.moveSites fun x => by simp).congr ⟨rfl, rfl, rfl, rfl, rfl, rfl, rfl, Nat.le_refl _⟩

theorem wp_closeFaulting {c : Int} {next : BlockId}
    (hk : s.mod.block? s.cursor.block = some k) (hq : Q () (s.faulting c next)) :
    Wp (closeFaulting c next) s Q := by
  refine wp_bind.2 (wp_get.2 (wp_bind.2 (wp_changeBlock hk ?_)))
  exact hq

theorem evolves_faulting (hk : s.mod.block? s.cursor.block = some k) (ht : k.term = .none)
    (c : Int) (next : BlockId) : Evolves s (s.faulting c next) :=
  (evolves_setTerm hk ht).trans ((Evolves.setSites _ _).trans
    (SameTables.evolves ⟨rfl, rfl, rfl, rfl, rfl, rfl, rfl, Nat.le_refl _⟩))

theorem Good.not_continued {o : Hand} (h : Good cx o s) {q x u : BlockId} {kq : Block}
    (hq : s.mod.block? q = some kq) (ht : kq.term = .mayUnwind x u) : ∃ k, s.mod.block? x = some k := by
  have hterm := (h.block hq).sound.term
  rw [ht] at hterm
  rcases hterm.1 with ⟨k, hk, -⟩ | ⟨-, k, hk, -⟩ <;> exact ⟨k, hk⟩

/-- The state behind an instruction that may throw, in a new block. -/
abbrev State.split (s : State) (c : Int) : State :=
  { s with builder := (s.builder.newBlock (bciLabel c "_normal") c .continue).2 }.faulting c s.mod.blocks.size

/-- The block that is ended and the new one; the others stay as they are. -/
theorem block?_split (hk : s.mod.block? s.cursor.block = some k) (c : Int) :
    { s with builder := (s.builder.newBlock (bciLabel c "_normal") c .continue).2 }.mod.block? s.cursor.block = some k ∧
      (s.split c).mod.block? s.cursor.block = some { k with term := .mayUnwind s.mod.blocks.size noBlock } ∧
      (s.split c).mod.block? s.mod.blocks.size = some (s.builder.blankBlock (bciLabel c "_normal") c .continue) ∧
      ∀ b, b ≠ s.cursor.block → b ≠ s.mod.blocks.size → (s.split c).mod.block? b = s.mod.block? b := by
  have hne : s.cursor.block ≠ s.mod.blocks.size := ne_size hk
  have hb := s.builder.block?_newBlock (bciLabel c "_normal") c .continue
  have hk1 := (hb s.cursor.block).trans ((if_neg hne).trans hk)
  refine ⟨hk1, block?_change_self hk1 _, ?_, fun b hcur hnew => ?_⟩
  · rw [State.mod, block?_modifyBlock, if_neg (Ne.symm hne)]
    exact (hb _).trans (if_pos rfl)
  · rw [State.mod, block?_modifyBlock, if_neg hcur]
    exact (hb b).trans (if_neg hnew)

/-- **Behind an instruction that may throw the code goes on in a new block.** -/
theorem Working.flushPending (h : Working cx B O s) :
    Wp Context.flushPending s fun _ s' => Appends cx B O s s' ∧ s'.cursor.pending = none := by
  refine wp_bind.2 (wp_get.2 ?_)
  obtain ⟨k, hk, ht, hw, hwait⟩ := h.isOpen
  cases hp : s.cursor.pending with
  | none => exact ⟨h.appends, hp⟩
  | some c =>
    rw [hp] at hwait
    let s1 : State := { s with builder := (s.builder.newBlock (bciLabel c "_normal") c .continue).2 }
    obtain ⟨hk1, hold, hblank, hothers⟩ := block?_split hk c
    have hb := s.builder.block?_newBlock (bciLabel c "_normal") c .continue
    have hnew : s1.mod.block? s.mod.blocks.size = some (s.builder.blankBlock (bciLabel c "_normal") c .continue) := by
      rw [State.mod, hb, if_pos rfl]
    have hg1 := h.good.newBlock (bciLabel c "_normal") c .continue (P := []) (fun _ hx => hx) (fun hx => by cases hx)
      (fun hl => (bciLabel_ne_padLabel rfl rfl (by decide) hl).elim)
    have he1 : Evolves s s1 := .of_module rfl (Grows.newBlock _ _ _ _)
    have hcont : s1.mod.Continues s.cursor.block s.mod.blocks.size :=
      ⟨(block?_lt hk).2, _, hnew, rfl⟩
    have hgood : Good cx (O.add s.mod.blocks.size).hand (s1.faulting c s.mod.blocks.size) := by
      refine hg1.faulting (B := B) (List.Perm.swap _ _ _) hk1 hw.1 ?_ (h.known.mono he1) (.inr hcont) ?_ (.split hcont)
      · obtain ⟨hlo, hhi, hprot, v, j, hv, hj, hrest⟩ := hwait
        exact ⟨hlo, hhi, hprot, v, j, hv, he1.module.inst hj, hrest⟩
      -- a block that goes on at the new one would have been there before it
      intro q kq u' p hq hqt
      rw [State.mod, hb] at hq
      split at hq
      · obtain rfl := Option.some.inj hq
        cases hqt
      · obtain ⟨k', hk'⟩ := h.good.not_continued hq hqt
        exact absurd rfl (ne_size hk')
    have he2 := evolves_faulting hk1 ht c s.mod.blocks.size
    refine wp_bind.2 (wp_modifyGet.2 (wp_bind.2 (wp_closeFaulting hk1 ?_)))
    refine ⟨⟨⟨hgood.congr (.put _), h.tiled, h.mem,
      ⟨_, hblank, ⟨rfl, hwait.1, hwait.2.1⟩, fun hv => by simp [Builder.blankBlock] at hv⟩, h.here,
      h.owner.mono ((he1.trans he2).trans (SameTables.put _).evolves)⟩, ⟨?_, fun hu => ?_, rfl, rfl⟩, rfl, fun c hc => ?_⟩, rfl⟩
    · exact (he1.trans he2).trans (SameTables.put _).evolves
    · obtain ⟨ha, i, hi, hty⟩ := hu.mono (he1.trans he2).module
      exact ⟨.above hold rfl hblank rfl ha, i, hi, hty⟩
    · obtain ⟨kc, hkc, -⟩ := h.good.opened c (mem_cons_of_mem _ hc)
      exact hothers c (fun hx => h.not_mem (hx ▸ hc)) (ne_size hkc)

/-! ## Appending instructions -/

/-- A temporary that is neither a selector nor holds a caught exception. -/
def PlainTemp (s : State) (slot : Slot) : Prop :=
  ∃ (n : Nat) (name : Text), slot = ⟨.temp, n⟩ ∧ s.mod.temps[n]? = some name ∧
    (∀ h, name ≠ selectorName h) ∧ ∀ c, name ≠ caughtName c

theorem PlainTemp.mono (he : Evolves s s') (h : PlainTemp s slot) : PlainTemp s' slot := by
  obtain ⟨n, name, hs, hn, hrest⟩ := h
  exact ⟨n, name, hs, he.module.temp hn, hrest⟩

/-- The first byte of its name tells a plain temporary. -/
theorem PlainTemp.of_head {n : Nat} {name : Text} {x : UInt8} (hn : s.mod.temps[n]? = some name) (hx : name.head? = some x)
    (hne : x ≠ 101 ∧ x ≠ 102) : PlainTemp s ⟨.temp, n⟩ := by
  refine ⟨n, name, rfl, hn, ?_, ?_⟩ <;> rintro c rfl
  · exact hne.2 (Option.some.inj (hx.symm.trans (head?_selectorName c)))
  · exact hne.1 (Option.some.inj (hx.symm.trans (head?_caughtName c)))

theorem PlainTemp.inFrame {d : Nat} (h : PlainTemp s slot) : InFrame d s slot := by
  obtain ⟨n, name, rfl, hn, -⟩ := h
  exact .temp hn

/-- At the cursor a value is known not to be zero: it was checked, or it is a constant. -/
def NonZeroHere (s : State) (d : ValueId) : Prop :=
  ∃ g j, s.mod.Use s.cursor.block g j.ty ∧ s.mod.inst? g = some j ∧
    (j.op = .checkDivZero ∧ j.args = [d] ∨ g = d ∧ j.op = .const ∧ j.imm ≠ 0)

theorem NonZeroHere.proceeds (hp : Proceeds s s') {d : ValueId} (h : NonZeroHere s d) : NonZeroHere s' d := by
  obtain ⟨g, j, hu, hj, hrest⟩ := h
  exact ⟨g, j, hp.use hu, hp.evolves.module.inst hj, hrest⟩

/-- What has to hold of an instruction that is appended at the cursor, with room for a stack of size `d`. -/
structure Fitting (d : Nat) (s : State) (i : Inst) : Prop where
  args : ∀ a ∈ i.args, ∃ ty, s.mod.Use s.cursor.block a ty
  op : i.op ≠ .landingpad
  store : i.op = .storeSlot → i.slot.space = .temp → PlainTemp s i.slot
  divisor : Divides i → ∃ a d, i.args = [a, d] ∧ NonZeroHere s d
  slot : i.Accesses → InFrame d s i.slot

/-- An operation that needs nothing but its operands: it is neither a division nor uses a slot. -/
@[simp] def IsPlain (op : Op) : Prop := op ≠ .loadSlot ∧ op ≠ .storeSlot ∧ op ≠ .div ∧ op ≠ .rem

theorem IsPlain.not_divides (h : IsPlain i.op) : ¬ Divides i := fun hd => hd.1.elim h.2.2.1 h.2.2.2

section Fitting

variable {d : Nat} {v w : ValueId} {ty ty' : Ty}

/-- An instruction with a plain operation fits if its operands can be used. -/
theorem Fitting.of_uses (hargs : ∀ a ∈ i.args, ∃ ty, s.mod.Use s.cursor.block a ty)
    (hop : i.op ≠ .landingpad ∧ IsPlain i.op) : Fitting d s i :=
  ⟨hargs, hop.1, fun hx => absurd hx hop.2.2.1, fun hd => absurd hd hop.2.not_divides,
    fun hx => (hx.elim hop.2.1 hop.2.2.1).elim⟩

theorem Fitting.loading (hs : InFrame d s slot) : Fitting d s { op := .loadSlot, ty := ty, slot := slot } :=
  ⟨by simp, by simp, by simp, by simp [Divides], fun _ => hs⟩

theorem Fitting.unary (hargs : i.args = [v]) (hop : i.op ≠ .landingpad ∧ IsPlain i.op)
    (hv : s.mod.Use s.cursor.block v ty) : Fitting d s i :=
  .of_uses (fun a ha => by
    rw [hargs] at ha
    exact ⟨ty, mem_singleton.1 ha ▸ hv⟩) hop

theorem Fitting.binary (hargs : i.args = [v, w])
    (hop : i.op ≠ .landingpad ∧ IsPlain i.op) (hv : s.mod.Use s.cursor.block v ty)
    (hw : s.mod.Use s.cursor.block w ty') : Fitting d s i :=
  .of_uses (fun a ha => by
    rw [hargs] at ha
    rcases mem_cons.1 ha with rfl | ha
    · exact ⟨ty, hv⟩
    · exact ⟨ty', mem_singleton.1 ha ▸ hw⟩) hop

/-- A slot that code may store to. -/
def Storable (d : Nat) (s : State) (slot : Slot) : Prop := InFrame d s slot ∧ (slot.space = .temp → PlainTemp s slot)

theorem PlainTemp.storable (h : PlainTemp s slot) : Storable d s slot := ⟨h.inFrame, fun _ => h⟩

theorem Storable.local (n : Int) : Storable d s ⟨.local, n⟩ := ⟨.local n, by simp⟩

theorem Storable.stack {n : Nat} (h : n < max s.maxStack d) : Storable d s ⟨.stack, n⟩ := ⟨.stack h, by simp⟩

theorem Fitting.storing (hs : Storable d s slot) (hv : s.mod.Use s.cursor.block v ty) :
    Fitting d s { op := .storeSlot, slot := slot, args := [v] } :=
  ⟨fun _ ha => ⟨ty, mem_singleton.1 ha ▸ hv⟩, by simp, fun _ => hs.2, by simp [Divides], fun _ => hs.1⟩

end Fitting

theorem wp_emitIn {Q : ValueId → State → Prop} (hk : s.mod.block? b = some k)
    (hq : Q s.mod.insts.size { s with builder := (s.builder.emit b i).2 }) : Wp (emitIn b i) s Q := by
  refine wp_bind.2 (wp_get.2 (wp_bind.2 (wp_require hk ?_)))
  exact hq

theorem use_emit (hk : s.mod.block? b = some k) (i : Inst) : (s.builder.emit b i).2.mod.Use b s.mod.insts.size i.ty :=
  ⟨.own (block?_emit_self hk i) Array.mem_push_self, _, inst?_emit_self s b i, rfl⟩

/-- A value is defined by the last instruction at the cursor. -/
def Last (s : State) (v : ValueId) (i : Inst) : Prop :=
  ∃ k, s.mod.block? s.cursor.block = some k ∧ k.insts.back? = some v ∧
    s.mod.inst? v = some { i with bci := s.cursor.bci, id := v, block := s.cursor.block }

/-- **An instruction may be appended at the cursor.** -/
theorem Working.emit (h : Working cx B O s) (hi : Fitting O.depth s i) :
    Wp (cx.emit i) s fun v s' => Appends cx B O s s' ∧ s'.mod.Use s'.cursor.block v i.ty ∧
      Last s' v i ∧ (i.op.mayThrow = false → s'.cursor.pending = none) := by
  refine h.flushPending.bind fun _ s1 ⟨⟨h1, hp1, hstack, hoth⟩, hnone⟩ => ?_
  obtain ⟨k, hk, ht, hw, hwait⟩ := h1.isOpen
  rw [hnone] at hwait
  refine wp_bind.2 (wp_get.2 (wp_bind.2 (wp_emitIn hk ?_)))
  let j : Inst := { i with bci := s1.cursor.bci }
  let s2 : State := { s1 with builder := (s1.builder.emit s1.cursor.block j).2 }
  have hemit : Emittable cx (O.add s1.cursor.block).hand s1 s1.cursor.block k j := {
    args := fun a ha => by
      obtain ⟨ty, hu⟩ := hi.args a ha
      exact (hp1.use hu).1
    landingpad := fun hop => absurd hop hi.op
    quiet := hwait
    store := fun hop hsp => by
      obtain ⟨n, name, hs, hn, hsel, hexc⟩ := (hi.store hop hsp).mono hp1.evolves
      exact .other hs hn hsel hexc
    divisor := fun hd => by
      obtain ⟨a, d, hargs, hz⟩ := hi.divisor hd
      obtain ⟨g, j', ⟨hg, -⟩, hrest⟩ := hz.proceeds hp1
      exact ⟨a, d, hargs, g, j', hg.own_or_above hk, hrest⟩
    slot := fun hx => (hi.slot hx).mono hp1.evolves }
  have hgood : Good cx (O.add s1.cursor.block).hand s2 := h1.good.emit mem_cons_self hk hemit
  have hg := Grows.emit hk ht j
  have he : Evolves s1 s2 := .of_module rfl hg
  have hk2 : s2.mod.block? s1.cursor.block = some { k with insts := k.insts.push s1.mod.insts.size } :=
    block?_emit_self hk j
  have hv2 : s2.mod.inst? s1.mod.insts.size =
      some { j with id := s1.mod.insts.size, block := s1.cursor.block } := inst?_emit_self s1 _ j
  refine ⟨⟨⟨hgood.congr (.put _), h1.tiled, h1.mem, ⟨_, hk2, hw, ?_⟩,
    h1.here, h1.owner.mono (he.trans (SameTables.put _).evolves)⟩, ⟨?_, fun hu => (hp1.use hu).mono hg, hp1.bci, hp1.done⟩, hstack, fun c hc => ?_⟩, use_emit hk j,
    ⟨_, hk2, Array.back?_push, hv2⟩, fun hno => by simp [hno]⟩
  · change Waits cx B s2 { k with insts := k.insts.push s1.mod.insts.size }
      (if i.op.mayThrow && cx.table.isProtected s1.cursor.bci then some s1.cursor.bci else none)
    split
    · rename_i hthrow
      obtain ⟨hthrow, hprot⟩ := Bool.and_eq_true_iff.1 hthrow
      exact ⟨h1.here.1, h1.here.2, hprot, _, _, Array.back?_push, hv2, hthrow, rfl⟩
    rename_i hno
    intro v' j' hv' hj' hthrow
    obtain rfl := Option.mem_unique Array.back?_push hv'
    obtain rfl := Option.mem_unique hv2 hj'
    have hthrow : i.op.mayThrow = true := hthrow
    simpa [hthrow] using hno
  · exact hp1.evolves.trans (he.trans (SameTables.put _).evolves)
  · have hcb : c ≠ s1.cursor.block := fun hx => h1.not_mem (hx ▸ hc)
    rw [State.mod, Builder.block?_emit, if_neg hcb]
    exact hoth c hc

section Appending

variable {v : ValueId} {ty : Ty}

theorem Working.emitPure (h : Working cx B O s) (hargs : i.args = []) (hop : i.op ≠ .landingpad ∧ IsPlain i.op) :
    Wp (cx.emit i) s fun v s' => Appends cx B O s s' ∧ s'.mod.Use s'.cursor.block v i.ty :=
  (h.emit (.of_uses (by simp [hargs]) hop)).mono fun _ _ hx => ⟨hx.1, hx.2.1⟩

theorem Working.storeLast (h : Working cx B O s) (hs : Storable O.depth s slot)
    (hv : s.mod.Use s.cursor.block v ty) : Wp (cx.store slot v) s fun _ s' => Appends cx B O s s' ∧
      ∃ w, Last s' w { op := .storeSlot, slot := slot, args := [v] } :=
  (h.emit (.storing hs hv)).bind fun w _ hs' => ⟨hs'.1, w, hs'.2.2.1⟩

theorem Working.check (h : Working cx B O s) {op : Op} {args : List ValueId}
    (hop : op ≠ .landingpad ∧ IsPlain op) (hargs : ∀ a ∈ args, ∃ ty, s.mod.Use s.cursor.block a ty) :
    Wp (cx.check op args) s fun _ s' => Appends cx B O s s' ∧
      ∃ g, s'.mod.Use s'.cursor.block g .void ∧ Last s' g { op := op, args := args } :=
  (h.emit (.of_uses hargs hop)).bind fun g _ hs' => ⟨hs'.1, g, hs'.2.1, hs'.2.2.1⟩

theorem wp_constant? (hv : s.mod.Use s.cursor.block v ty) :
    Wp (constant? v) s fun c s' => s' = s ∧
      ∀ n, c = some n → ∃ i, s.mod.inst? v = some i ∧ i.op = .const ∧ i.imm = n := by
  obtain ⟨-, i, hi, -⟩ := hv
  refine wp_bind.2 (wp_get.2 (wp_bind.2 (wp_require hi ⟨rfl, fun n hn => ?_⟩)))
  split at hn
  · rename_i hc
    exact ⟨i, hi, hc.1, Option.some.inj hn⟩
  · cases hn

/-- Behind the check a divisor is known not to be zero. -/
theorem Working.checkDivZero (h : Working cx B O s) (hv : s.mod.Use s.cursor.block v ty) :
    Wp (cx.checkDivZero v) s fun _ s' => Appends cx B O s s' ∧ NonZeroHere s' v := by
  refine (wp_constant? hv).bind fun c s1 hs1 => ?_
  obtain ⟨rfl, hc⟩ := hs1
  dsimp only
  split
  · rename_i hknown
    obtain ⟨n, hn, hne⟩ := (Option.any_eq_true _ _).1 (Bool.and_eq_true_iff.1 hknown).2
    obtain ⟨i, hi, hop, rfl⟩ := hc n hn
    obtain ⟨ha, j, hj, -⟩ := hv
    exact ⟨h.appends, v, i, ⟨ha, i, hi, rfl⟩, hi, .inr ⟨rfl, hop, by simpa using hne⟩⟩
  · refine (h.check (by simp) fun a ha => ⟨ty, mem_singleton.1 ha ▸ hv⟩).mono fun _ s2 ⟨ha, g, ⟨hg, _⟩, k, _, _, hi⟩ => ?_
    exact ⟨ha, g, _, ⟨hg, _, hi, rfl⟩, hi, .inl ⟨rfl, rfl⟩⟩

theorem Working.markNonNull (h : Working cx B O s) (v : ValueId) :
    Wp (markNonNull v) s fun _ s' => Appends cx B O s s' :=
  ⟨h.congr (.put _) rfl rfl rfl h.here,
    .congr (.put _) rfl rfl rfl, rfl, fun _ _ => rfl⟩

end Appending

/-! ## The symbolic stack -/

/-- A step within a bytecode block, which may change the symbolic stack. -/
structure Advances (cx : Context) (B : CodeBlock) (O : Rest) (s s' : State) : Prop where
  ready : Ready cx B O s'
  proceeds : Proceeds s s'

theorem Ready.advances (h : Ready cx B O s) : Advances cx B O s s := ⟨h, .refl s⟩

theorem Advances.trans (h : Advances cx B O s s') (h' : Advances cx B O s' s'') : Advances cx B O s s'' :=
  ⟨h'.ready, h.proceeds.trans h'.proceeds⟩

theorem Ready.advance (h : Ready cx B O s) (ha : Appends cx B O s s') : Advances cx B O s s' :=
  ⟨h.appends ha, ha.proceeds⟩

theorem Working.setStack (h : Working cx B O s) {stack : List StackEntry}
    (hst : ∀ e ∈ stack, s.mod.Use s.cursor.block e.id e.ty) :
    Advances cx B O s { s with cursor := { s.cursor with stack := stack } } :=
  ⟨⟨h.congr (.put _) rfl rfl rfl h.here, hst⟩,
    .congr (.put _) rfl rfl rfl⟩

section Stack

variable {v : ValueId} {ty : Ty}

theorem wp_stackShape {Q : List Ty → State → Prop} :
    Wp stackShape s Q ↔ Q (s.cursor.stack.reverse.map (·.ty)) s := Iff.rfl

theorem Ready.push (h : Ready cx B O s) (hv : s.mod.Use s.cursor.block v ty) :
    Wp (push v ty) s fun _ s' => Advances cx B O s s' :=
  h.toWorking.setStack fun e he => by
    rcases mem_cons.1 he with rfl | he
    · exact hv
    · exact h.stack e he

theorem Ready.emitPush (h : Ready cx B O s) (hi : Fitting O.depth s i) : Wp (cx.emitPush i) s fun _ s' => Advances cx B O s s' := by
  refine (h.emit hi).bind fun v s1 ⟨ha, hu, _, _⟩ => ?_
  exact ((h.appends ha).push hu).mono fun _ s2 hs2 => (h.advance ha).trans hs2

/-- The state with another symbolic stack. -/
abbrev State.withStack (s : State) (stack : List StackEntry) : State := { s with cursor := { s.cursor with stack := stack } }

theorem Ready.popTy (h : Ready cx B O s) (ty : Ty) : Wp (popTy ty) s fun v s' => Advances cx B O s s' ∧
    s'.mod.Use s'.cursor.block v ty ∧ ∃ rest, s.cursor.stack = ⟨v, ty⟩ :: rest ∧ s' = s.withStack rest := by
  unfold Context.popTy Context.pop
  rw [bind_assoc]
  refine wp_bind.2 (wp_get.2 ?_)
  cases hst : s.cursor.stack with
  | nil => exact wp_failHere trivial
  | cons e rest =>
    have hu : ∀ x ∈ e :: rest, s.mod.Use s.cursor.block x.id x.ty := hst ▸ h.stack
    refine wp_bind.2 (wp_bind.2 (wp_modify.2 (wp_bind.2 (wp_refuseHereIf trivial fun hty => ?_))))
    obtain rfl : e.ty = ty := not_not.1 hty
    exact ⟨h.toWorking.setStack fun x hx => hu x (mem_cons_of_mem _ hx), hu e mem_cons_self, rest, rfl, rfl⟩

theorem Working.needStack (h : Working cx B O s) (n : Nat) :
    Wp (needStack n) s fun _ s' => Appends cx B O s s' ∧ n ≤ s'.maxStack := by
  have hs := SameTables.deepen (s := s) (c := s.cursor) (l := s.records) (Nat.le_max_left _ n)
  exact ⟨⟨h.congr hs rfl rfl rfl h.here, .congr hs rfl rfl rfl, rfl, fun _ _ => rfl⟩, Nat.le_max_right _ _⟩

end Stack

/-! ## Ending a bytecode block -/

/-- What the last instruction of a bytecode block is. -/
structure AtLast (B : CodeBlock) (s : State) (i : Instruction) : Prop where
  last : B.insts.getLast? = some i
  bci : s.cursor.bci = i.bci

theorem Working.lastOf (h : Working cx B O s) {i : Instruction} (hw : Within B k)
    (hi : B.insts.getLast? = some i) : LastOf cx k.start i :=
  ⟨B, h.mem, hw.2.1, hw.2.2, hi⟩

theorem LastOf.unique (hT : cx.partition.Tiled) {bci : Int} {i j : Instruction} (hi : LastOf cx bci i)
    (hj : LastOf cx bci j) : i = j := by
  obtain ⟨B, hB, hlo, hhi, hl⟩ := hi
  obtain ⟨B', hB', hlo', hhi', hl'⟩ := hj
  obtain ⟨n, rfl⟩ : ∃ n : Nat, bci = n := ⟨bci.toNat, by omega⟩
  obtain rfl := hT.eq_of_mem_range hB hB' (x := n) (by omega) (by omega)
  exact Option.mem_unique hl hl'

theorem Working.closable (h : Working cx B O s) {E : List BlockId} {i : Instruction}
    (hw : Within B k) (hwait : Waits cx B s k none) (hi : AtLast B s i) (hne : t ≠ .none)
    (hmay : ∀ x u, t ≠ .mayUnwind x u) (hunw : t.unwind = noBlock)
    (hterm : s.mod.SoundTerm s.cursor.block k t) (htail : Tail cx s O.owner.head? i k.insts.back? t)
    (hE : ∀ {v cs}, t = .switch v noBlock cs → s.cursor.block ∈ E) :
    CodeClosable cx { (O.add s.cursor.block).hand with ending := E }
      (if t.isThrow && cx.table.isProtected s.cursor.bci then [⟨s.cursor.bci, s.cursor.block, s.cursor.owner⟩]
        else []) s s.cursor.block k t := by
  have hlast := h.lastOf hw hi.last
  -- a block faults here only if it throws at a protected bci
  have hfault {c : Int} : FaultAt cx s { k with term := t } c ↔
      (t.isThrow && cx.table.isProtected s.cursor.bci) = true ∧ c = s.cursor.bci := by
    cases t with
    | mayUnwind x u => exact absurd rfl (hmay x u)
    | throw v u =>
      simp only [FaultAt, Terminator.isThrow, Bool.true_and]
      constructor
      · rintro ⟨hp, j, hj, rfl⟩
        obtain rfl := hj.unique h.tiled hlast
        rw [hi.bci]
        exact ⟨hp, rfl⟩
      · rintro ⟨hp, rfl⟩
        exact ⟨hp, i, hlast, hi.bci.symm⟩
    | _ => simp [FaultAt, Terminator.isThrow]
  refine ⟨⟨hne, hterm, fun ht => absurd ht (hmay _ _), fun hv hj hop hp => ?_, fun ht => absurd ht (hmay _ _), hunw, hE⟩,
    .tail hlast htail, fun x hx => ?_, fun hf => ?_, fun ht => absurd ht htail.ne_unreachable⟩
  · rw [hwait hv hj hop] at hp
    cases hp
  · split at hx
    · obtain rfl := mem_singleton.1 hx
      exact ⟨h.known, rfl, hfault.2 ⟨‹_›, rfl⟩⟩
    · cases hx
  · obtain ⟨hc, rfl⟩ := hfault.1 hf
    rw [if_pos hc]
    exact ⟨_, mem_singleton_self _, rfl, rfl⟩

/-- How the last instruction of a bytecode block may end the IR block at the cursor. -/
def TailAt (cx : Context) (s : State) (o : Option Int) (i : Instruction) (t : Terminator) : Prop :=
  ∀ {k}, s.mod.block? s.cursor.block = some k → Tail cx s o i k.insts.back? t

/-- **The IR block may be ended as the last instruction says**, when no instruction waits to end it. -/
theorem Working.close (h : Working cx B O s) {E : List BlockId} {i : Instruction}
    (hp : s.cursor.pending = none) (hi : AtLast B s i) (hne : t ≠ .none) (hmay : ∀ x u, t ≠ .mayUnwind x u)
    (hunw : t.unwind = noBlock) (hterm : ∀ k, s.mod.SoundTerm s.cursor.block k t) (htail : TailAt cx s O.owner.head? i t)
    (hE : ∀ {v cs}, t = .switch v noBlock cs → s.cursor.block ∈ E) :
    Wp (cx.close t) s fun _ s' => Good cx { O.hand with ending := E } s' ∧ Evolves s s' ∧ s'.cursor = s.cursor ∧
      s'.mod = (s.ended s.cursor.block t).mod := by
  obtain ⟨k, hk, ht, hw, hwait⟩ := h.isOpen
  rw [hp] at hwait
  have hc := h.closable hw hwait hi hne hmay hunw (hterm k) (htail hk) hE
  have hgood : Good cx { (O.add s.cursor.block).hand with ending := E } s :=
    { h.good with ending := fun hk ht => (h.good.ending hk ht).imp_left (by simp) }
  have hg := hgood.close (.refl _) hk (hc.closable hgood rfl hk hw.1)
  have he := evolves_setTerm (t := t) hk ht
  refine wp_bind.2 (wp_get.2 (wp_bind.2 (wp_changeBlock hk ?_)))
  split at hg
  · rw [if_pos ‹_›]
    exact ⟨hg.moveSites fun x => by simp, he.trans (.setSites _ _), rfl, rfl⟩
  · rw [if_neg ‹_›]
    exact ⟨hg, he, rfl, rfl⟩

theorem wp_flushPending_of_none (hp : s.cursor.pending = none) (hq : Q () s) : Wp flushPending s Q := by
  refine wp_bind.2 (wp_get.2 ?_)
  split
  · exact hq
  · rename_i c hc
    cases hp.symm.trans hc

/-- A block in which no instruction waits is ended by its terminator. -/
theorem wp_terminate_of_none (hp : s.cursor.pending = none)
    (hq : Wp (cx.close t) { s with cursor := { s.cursor with done := true } } Q) : Wp (cx.terminate t) s Q := by
  refine wp_bind.2 (wp_modify.2 (wp_bind.2 (wp_get.2 ?_)))
  split
  · rename_i c x hc hx
    cases hp.symm.trans hc
  · exact wp_bind.2 (wp_flushPending_of_none hp hq)

/-- The bytecode block is ended. -/
structure Finishes (cx : Context) (B : CodeBlock) (O : Rest) (s s' : State) : Prop where
  good : Good cx O.hand s'
  evolves : Evolves s s'
  done : s'.cursor.done = true
  tail : ∃ i last t, B.insts.getLast? = some i ∧ Tail cx s' O.owner.head? i last t

theorem Finishes.counted (h : Finishes cx B (O.deep s'') s s') (hd : s''.cursor.stack.length ≤ s'.maxStack) :
    Finishes cx B O s s' :=
  { h with good := h.good.setDepth (max_le (le_max_right _ _) (le_max_of_le_left hd)) }

/-- **A bytecode block may be ended as its last instruction says.** -/
theorem Working.terminate (h : Working cx B O s) {i : Instruction} (hi : AtLast B s i)
    (hne : t ≠ .none) (hmay : ∀ x u, t ≠ .mayUnwind x u) (hunw : t.unwind = noBlock)
    (hsw : ∀ v cs, t ≠ .switch v noBlock cs)
    (hterm : ∀ {s' : State}, (∀ {v ty}, s.mod.Use s.cursor.block v ty → s'.mod.Use s'.cursor.block v ty) →
      Evolves s s' → ∀ k, s'.mod.SoundTerm s'.cursor.block k t)
    (htail : t.jump? = none → ∀ last, Tail cx s O.owner.head? i last t)
    (hjump : ∀ {x}, t.jump? = some x → s.mod.Target x ∧ ∀ {t'}, Passes t' x → TailAt cx s O.owner.head? i t') :
    Wp (cx.terminate t) s fun _ s' => Finishes cx B O s s' := by
  refine wp_bind.2 (wp_modify.2 ?_)
  let s0 : State := { s with cursor := { s.cursor with done := true } }
  have hs0 : SameTables s s0 := .put _
  have h0 : Working cx B O s0 := h.congr hs0 rfl rfl rfl h.here
  change Wp (get >>= _) s0 _
  refine wp_bind.2 (wp_get.2 ?_)
  have hclose {s1 : State} (ha : Appends cx B O s0 s1) (hp : s1.cursor.pending = none) (htail1 : TailAt cx s1 O.owner.head? i t) :
      Wp (cx.close t) s1 fun _ s' => Finishes cx B O s s' := by
    have he1 := hs0.evolves.trans ha.proceeds.evolves
    have hi1 : AtLast B s1 i := ⟨hi.last, ha.proceeds.bci.trans hi.bci⟩
    refine (ha.working.close (E := []) hp hi1 hne hmay hunw (hterm ha.proceeds.use he1) htail1
      (fun ht => absurd ht (hsw _ _))).mono fun _ s2 ⟨hg, he2, hc, _⟩ => ?_
    obtain ⟨k, hk, -⟩ := ha.working.block
    exact ⟨hg, he1.trans he2, by rw [hc, ha.proceeds.done], i, _, t, hi.last, (htail1 hk).mono he2 (.refl _)⟩
  cases hj : t.jump? with
  | none =>
    have hflush : Wp (Context.flushPending >>= fun _ => cx.close t) s0 fun _ s' => Finishes cx B O s s' :=
      h0.flushPending.bind fun _ s1 ⟨ha, hp⟩ =>
        hclose ha hp fun _ => (htail hj _).mono (hs0.evolves.trans ha.proceeds.evolves) (.refl _)
    cases s0.cursor.pending <;> exact hflush
  | some x =>
    obtain ⟨hx, htail'⟩ := hjump hj
    have hpass : Passes t x := by
      unfold Terminator.jump? at hj
      split at hj
      · exact .inl (Option.some.inj hj ▸ rfl)
      · exact .inr (.inl (Option.some.inj hj ▸ rfl))
      · cases hj
    cases hp : s0.cursor.pending with
    | none =>
      exact wp_bind.2 (wp_flushPending_of_none hp
        (hclose h0.appends hp fun hk => (htail' hpass hk).mono hs0.evolves (.refl _)))
    | some c =>
      -- the jump of a block that may throw is the normal edge of its last instruction
      obtain ⟨k, hk, ht, hw, hwait⟩ := h0.isOpen
      rw [hp] at hwait
      have htail0 := htail' (.inr (.inr ⟨noBlock, rfl⟩)) hk
      have hef := hs0.evolves.trans (evolves_faulting hk ht c x)
      refine wp_closeFaulting hk ⟨?_, hef, rfl, i, _, _, hi.last, htail0.mono hef (.refl _)⟩
      exact h0.good.faulting (B := B) (.refl _) hk hw.1 hwait h0.known (.inl hx) (fun _ _ => hx.not_continues)
        (.tail (h0.lastOf hw hi.last) (htail0.mono hs0.evolves (.refl _)))

end Bytelift.Lift
