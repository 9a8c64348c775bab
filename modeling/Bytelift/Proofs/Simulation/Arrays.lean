import Bytelift.Proofs.Lift.Allocation
import Bytelift.Proofs.Machine.ArrayTrees

/-!
# Lifting arrays

An array of one dimension appends straight-line code. For several dimensions the lengths are checked first. The arrays
of a level are made by a loop over the array of the level above, and the loops are nested. The head of a loop is a
block without code when the lifting comes to it, so a run that goes back to the head stands at the cursor of that time
again, and the invariant of the loop is about the slots and the heap.

Results:
* `Working.buildsLevels`: **the nested loops plant a tree of arrays**.
-/

namespace Bytelift.Lift

open Ir List Machine
open Context (Level)

variable {cx : Context} {B : CodeBlock} {O : Rest} {s s' : State} {w : Walk} {f f' : Frame} {κ : Machine.State}
  {v length : ValueId} {ty : Ty} {bci : Int} {level : Level} {x : Value} {xs : List Value} {head exit : BlockId}
  {levels : List Level}

theorem Does.heap {α : Type} {x : RunM α} {Q : α → Frame → Prop} {a : α} {g : Array Object}
    (h : Does w bci κ x s Q) (hκ : κ.bare = κ) (hx : x.run κ = (.ok a, { κ with heap := g })) :
    ∃ f, At w s f { κ with heap := g } ∧ Q a f := by
  have hat := h κ hκ
  rw [hx] at hat
  obtain ⟨f, hat, hq⟩ := hat
  have hbare : { κ with heap := g }.bare = { κ.bare with heap := g } := rfl
  rw [hbare, hκ] at hat
  exact ⟨f, hat, hq⟩

theorem operands_of_has {i : Inst} (h : Forall₂ (Has s f) i.args xs) : f.Operands i xs :=
  h.imp fun _ _ hx => hx.2

/-- One slot of a frame is set. -/
def Writes (f f' : Frame) (slot : Slot) (x : Value) : Prop :=
  ∀ slot', f'.read? slot' = if slot' = slot then some x else f.read? slot'

/-! ## Allocating an array -/

theorem Working.marks (h : Working cx B O s) (v : ValueId) :
    Wp (Context.markNonNull v) s fun _ s' => Appends cx B O s s' ∧ ∀ w f κ, At w s f κ → At w s' f κ :=
  (h.markNonNull v).and fun _ _ _ hat => hat

/-- **An array of zeros is allocated.** -/
theorem Working.allocsArray (h : Working cx B O s) (desc : Text) (hlen : s.mod.Use s.cursor.block length ty) :
    Wp (cx.allocArray desc length) s fun v s' => Appends cx B O s s' ∧ s'.mod.Use s'.cursor.block v .ref ∧
      ∀ w f κ x n, s'.mod.Grows w.mod → At w s f κ → Has s f length x → x.IsNat n →
        ∃ f' a, At w s' f' { κ with heap := κ.heap.push { cls := desc, array := some a } } ∧
          a.Lists (List.replicate n {}) ∧ Retains s s' f f' ∧ Has s' f' v (.ofRef κ.heap.size) := by
  refine wp_bind.2 (wp_elementType fun elem => ?_)
  refine (h.emits (.unary rfl (by simp) hlen)).bind fun arr s1 ⟨he1, _⟩ => ?_
  refine (he1.working.marks arr).bind fun _ s2 ⟨ha2, hd2⟩ => ?_
  refine (ha2.working.zeros _).bind fun z s3 ⟨ha3, hz, hd3⟩ => ?_
  have harr3 := ha3.proceeds.use (ha2.proceeds.use he1.use)
  refine (ha3.working.emits (.binary rfl (by simp) harr3 hz)).bind fun u s4 ⟨he4, _⟩ => ?_
  refine ⟨((he1.toAppends.trans ha2).trans ha3).trans he4.toAppends, he4.proceeds.use harr3, fun w f κ x n hM hat hx hn => ?_⟩
  have hcls : (Context.arraySite desc elem length).cls = desc := by
    unfold Context.arraySite
    split <;> rfl
  have hM3 : s3.mod.Grows w.mod := he4.grows.trans hM
  have hM1 : s1.mod.Grows w.mod := ha2.grows.trans (ha3.grows.trans hM3)
  have halloc := he1.defines hM1 hat (by simp) (defines_allocArray rfl rfl (hx.operand rfl))
  obtain ⟨f1, hat1, hr1, hv1⟩ := halloc.of_map.heap hat.bare (run_allocArray hn)
  have hr2 : Retains s1 s2 f1 f1 := .of_grows ha2.grows
  obtain ⟨f3, hat3, hr3, hz3⟩ := hd3 w f1 _ hM3 (hd2 w f1 _ hat1)
  have hv3 := hr3.has (hr2.has hv1)
  have hfill := he4.acts hM hat3 (by simp) (acts_arrayFill rfl (operands_of_has (.cons hv3 (.cons hz3 .nil))))
  obtain ⟨f4, hat4, hr4⟩ := hfill.heap hat3.bare (run_fillArray Array.getElem?_push_size rfl {})
  refine ⟨f4, _, ?_, ArrayBody.lists_fill_new (Context.arraySite desc elem length).elem n {}, ((hr1.trans hr2).trans hr3).trans hr4, hr4.has hv3⟩
  rw [hcls] at hat4
  rwa [setIfInBounds_push_size] at hat4

theorem Ready.pushesArray (h : Ready cx B O s) (desc : Text) (hlen : s.mod.Use s.cursor.block length ty) :
    Wp (cx.allocArray desc length >>= fun arr => Context.push arr .ref) s fun _ s' => Advances cx B O s s' ∧
      ∀ w f κ x n below, s'.mod.Grows w.mod → At w s f κ → Has s f length x → x.IsNat n → Holds s f below →
        ∃ f' a, At w s' f' { κ with heap := κ.heap.push { cls := desc, array := some a } } ∧
          a.Lists (List.replicate n {}) ∧ Holds s' f' (.ofRef κ.heap.size :: below) ∧ ∀ slot, f'.read? slot = f.read? slot := by
  refine (h.allocsArray desc hlen).bind fun arr s1 ⟨ha1, harr, hd1⟩ => ?_
  refine ((h.appends ha1).pushes harr).mono fun _ s2 ⟨ha2, hs2⟩ => ⟨(h.advance ha1).trans ha2, ?_⟩
  subst hs2
  intro w f κ x n below hM hat hx hn hbelow
  obtain ⟨f', a, hat', hzeros, hr, hv⟩ := hd1 w f κ x n hM hat hx hn
  exact ⟨f', a, hat'.withStack _, hzeros, (hr.holds ha1.stack hbelow).push hv, hr.slots⟩

theorem Ready.liftArray (h : Ready cx B O s) (desc : Text) : Wp (cx.liftArray desc) s fun _ s' => Advances cx B O s s' := by
  refine (h.popTy .i32).bind fun length s1 ⟨ha1, hlen, _⟩ => ?_
  refine (ha1.ready.checksNonNeg hlen).bind fun _ s2 ⟨ha2, _⟩ => ?_
  have hr2 := ha1.trans (ha1.ready.advance ha2)
  exact (hr2.ready.pushesArray desc (ha2.proceeds.use hlen)).mono fun _ s3 ⟨hs3, _⟩ => hr2.trans hs3

theorem Ready.liftNewArray (h : Ready cx B O s) (i : Instruction) :
    Wp (cx.liftNewArray i) s fun _ s' => Advances cx B O s s' := by
  unfold Context.liftNewArray
  split
  · exact wp_failAt trivial
  · exact h.liftArray _

theorem Ready.liftRefArray (h : Ready cx B O s) (i : Instruction) :
    Wp (cx.liftRefArray i) s fun _ s' => Advances cx B O s s' :=
  wp_bind.2 (wp_poolClass (by decide) fun cls _ => h.liftArray _)

theorem Working.allocsLevel (h : Working cx B O s) (hl : Stores s bci level) :
    Wp (cx.allocLevel level) s fun _ s' => Appends cx B O s s' ∧ ∀ w f κ x n, s'.mod.Grows w.mod → At w s f κ →
      f.read? level.length = some x → x.IsNat n →
      ∃ f' a, At w s' f' { κ with heap := κ.heap.push { cls := level.desc, array := some a } } ∧
        a.Lists (List.replicate n {}) ∧ Writes f f' level.array (.ofRef κ.heap.size) := by
  refine (h.loads hl.length.storable.1 .i32).bind fun n s1 ⟨ha1, hn, _, hd1⟩ => ?_
  refine (ha1.working.allocsArray level.desc hn).bind fun arr s2 ⟨ha2, harr, hd2⟩ => ?_
  have hl2 := (hl.mono ha1.proceeds.evolves).mono ha2.proceeds.evolves
  refine (ha2.working.stores hl2.array.storable harr).mono fun _ s3 ⟨ha3, hd3⟩ => ⟨(ha1.trans ha2).trans ha3, ?_⟩
  intro w f κ x n hM hat hx hn
  have hM2 := ha3.grows.trans hM
  obtain ⟨f1, hat1, hr1, hx1⟩ := hd1 w f κ x (ha2.grows.trans hM2) hat hx
  obtain ⟨f2, a, hat2, ha, hr2, hv2⟩ := hd2 w f1 κ x n hM2 hat1 hx1 hn
  obtain ⟨f3, hat3, hset⟩ := hd3 w f2 _ _ hM hat2 hv2 hl2.array.nonneg
  refine ⟨f3, a, hat3, ha, fun slot => ?_⟩
  rw [hset.read?, hr2.slots, hr1.slots]

/-! ## Going from block to block -/

/-- The run comes to the beginning of a block. -/
def ReachesBlock (w : Walk) (b : BlockId) (f : Frame) (κ : Machine.State) : Prop :=
  ∃ σ : Machine.State, Machine.Path w.call w.mod (fun _ => True) w.start ⟨b, f, σ⟩ ∧ σ.bare = κ

theorem ReachesBlock.at {b : BlockId} (h : ReachesBlock w b f κ) (ho : Opens cx B O b s s') : At w s' f κ := by
  obtain ⟨σ, hpath, rfl⟩ := h
  obtain ⟨k, hk, -, hnil, -⟩ := ho.blank
  obtain rfl := ho.block
  exact .of_path hpath hk hnil

theorem At.closes {k : Block} {t : Terminator} {b : BlockId} (h : At w s f κ) (hk : s.mod.block? s.cursor.block = some k)
    (hM : (s.ended s.cursor.block t).mod.Grows w.mod) (ht : t ≠ .none)
    (hfix : ∀ {t'}, t.Completes t' → t' = t)
    (hexec : ∀ (k : Block) (σ : Machine.State), k.term = t → (execTerm w.mod k f).run σ = (.ok (.jump b f), σ)) :
    ReachesBlock w b f κ := by
  obtain ⟨kM, hkM, hg⟩ := hM.block (block?_change_self hk _)
  obtain ⟨hinsts, hcomp⟩ := hg.closed ht
  exact h.leaves hk hkM hinsts hg.label fun σ => hexec kM σ (hfix hcomp)

theorem Working.jumps (h : Working cx B O s) {target : BlockId} (htar : LoopBlock s target) : Wp (Context.jumpTo target) s
    fun _ s' => Closes cx O target s s' ∧ ∀ w f κ, s'.mod.Grows w.mod → At w s f κ → ReachesBlock w target f κ := by
  refine (h.flushPending.and h.flushes).bind fun _ s1 ⟨⟨ha1, hp1⟩, _, hd1⟩ => ?_
  have htar1 := htar.mono ha1.proceeds.evolves
  obtain ⟨k, hk, -⟩ := ha1.working.isOpen
  have hc := ha1.working.closeLoopBlock (t := .goto target) hp1 hk (by simp) trivial
    htar1.target (.enter htar1)
  refine wp_bind.2 (wp_get.2 (wp_bind.2 (wp_changeBlock hk (wp_modify.2 ⟨ha1.closes (hc.moveTo target), fun w f κ hM hat => ?_⟩))))
  refine (hd1 w f κ (hc.moves.evolves.module.trans hM) hat).closes hk hM (by simp) (fun hcomp => ?_) fun k σ hk => ?_
  · cases hcomp
    rfl
  · unfold execTerm
    rw [hk]
    rfl

/-! ## Loops -/

/-- The loop over a level starts at its head with the index zero. -/
theorem Working.startsLoop (h : Working cx B (O.add head) s) (hl : Stores s bci level) (hhead : Blank B s head) :
    Wp (cx.startLoop level head) s fun _ s' => Opens cx B O head s s' ∧ ∀ w f κ, s'.mod.Grows w.mod → At w s f κ →
      ∃ f' x, ReachesBlock w head f' κ ∧ x.IsNat 0 ∧ Writes f f' level.index x := by
  refine (h.constants 0).bind fun z s1 ⟨ha1, hz, hd1⟩ => ?_
  have hl1 := hl.mono ha1.proceeds.evolves
  refine (ha1.working.stores hl1.index.storable hz).bind fun _ s2 ⟨ha2, hd2⟩ => ?_
  have ha := ha1.trans ha2
  refine (ha2.working.jumps (hhead.moves ha.moves mem_cons_self).loopBlock).mono fun _ s3 ⟨hc3, hd3⟩ =>
    ⟨(ha.closes hc3).opens h hhead, fun w f κ hM hat => ?_⟩
  have hM2 := hc3.moves.evolves.module.trans hM
  obtain ⟨f1, hat1, hr1, hz1⟩ := hd1 w f κ (ha2.grows.trans hM2) hat
  obtain ⟨f2, hat2, hset⟩ := hd2 w f1 κ _ hM2 hat1 hz1 hl1.index.nonneg
  refine ⟨f2, .ofInt (0 : Int64).toInt32.toInt64, hd3 w f2 κ hM hat2, ⟨rfl, by decide⟩, fun slot => ?_⟩
  rw [hset.read?, hr1.slots]

/-- At the head of the loop over a level the index is compared with the length. -/
theorem Working.testsLoop {body : BlockId} (h : Working cx B ((O.add exit).add body) s) (hl : Stores s bci level)
    (hbody : Blank B s body) (hexit : Blank B s exit) :
    Wp (cx.testLoop level body exit) s fun _ s' => Opens cx B (O.add exit) body s s' ∧ ∀ w f κ x y n m, s'.mod.Grows w.mod → At w s f κ →
      f.read? level.index = some x → x.IsNat n → f.read? level.length = some y → y.IsNat m →
      ∃ f', ReachesBlock w (if n < m then body else exit) f' κ ∧ ∀ slot, f'.read? slot = f.read? slot := by
  refine (h.loads hl.index.storable.1 .i32).bind fun i s1 ⟨ha1, hi, _, hd1⟩ => ?_
  refine (ha1.working.loads (hl.length.storable.1.mono ha1.proceeds.evolves) .i32).bind fun b s2 ⟨ha2, hb, _, hd2⟩ => ?_
  have hi2 := ha2.proceeds.use hi
  refine (ha2.working.emits (i := { op := .icmp, ty := .i1, imm := predicateCode .lt, args := [i, b] })
    (.binary rfl (by simp) hi2 hb)).bind fun c s3 ⟨he3, hp3⟩ => ?_
  have ha := (ha1.trans ha2).trans he3.toAppends
  have hbody3 := (hbody.moves ha.moves mem_cons_self).loopBlock
  have hexit3 := (hexit.moves ha.moves (mem_cons_of_mem _ mem_cons_self)).loopBlock
  obtain ⟨k, hk, -⟩ := he3.working.isOpen
  have hc := ha.working.closeLoopBlock (t := .condBr c body exit) (hp3 rfl) hk (by simp) ⟨trivial, trivial⟩
    ⟨hbody3.target, hexit3.target, he3.use⟩ (.loop hbody3 hexit3)
  refine wp_bind.2 (wp_get.2 (wp_bind.2 (wp_changeBlock hk (wp_modify.2 ⟨(ha.closes (hc.moveTo body)).opens h hbody, ?_⟩))))
  intro w f κ x y n m hM hat hx hn hy hm
  have hM3 : s3.mod.Grows w.mod := hc.moves.evolves.module.trans hM
  have hM2 := he3.grows.trans hM3
  obtain ⟨f1, hat1, hr1, hx1⟩ := hd1 w f κ x (ha2.grows.trans hM2) hat hx
  obtain ⟨f2, hat2, hr2, hy2⟩ := hd2 w f1 κ y hM2 hat1 ((hr1.slots _).trans hy)
  obtain ⟨j, hj, hty⟩ := hi2.2
  have hcmp : Defines w.call w.mod
      (placed { op := .icmp, ty := .i1, imm := predicateCode .lt, args := [i, b] } s2 s3 c) f2 _ := defines_icmp rfl
    (operands_of_has (.cons (hr2.has hx1) (.cons hy2 .nil))) rfl (hM2.inst hj)
  have hlt : compareBy (j.ty = .ref) (predicate? (predicateCode .lt).toInt) x y = pure (.ofBool (decide (n < m))) := by
    rw [hty, ← hn.holds_lt hm]
    rfl
  obtain ⟨f3, hat3, hr3, hc3⟩ := he3.gives hM3 hat2 (by simp) (hlt ▸ hcmp)
  refine ⟨f3, hat3.closes hk hM (by simp) (fun hcomp => ?_) fun k σ hk => ?_, fun slot => ?_⟩
  · cases hcomp
    rfl
  · unfold execTerm
    rw [hk]
    dsimp only
    rw [Frame.value_eq hc3.2, pure_bind]
    by_cases hnm : n < m <;> simp [hnm, Value.ofBool] <;> rfl
  · rw [hr3.slots, hr2.slots, hr1.slots]

/-- A run stores the array of the inner level into that of a level, and counts up the index. -/
def ClosesLoop (w : Walk) (s : State) (level inner : Level) (head : BlockId) : Prop :=
  ∀ f κ r x n r' g, At w s f κ → f.read? level.array = some (.ofRef r) → f.read? level.index = some x → x.IsNat n →
    n + 1 < 2 ^ 31 → f.read? inner.array = some (.ofRef r') →
    (setElement (.ofRef r) n (.ofRef r')).run κ = (.ok (), { κ with heap := g }) →
    ∃ f' y, ReachesBlock w head f' { κ with heap := g } ∧ y.IsNat (n + 1) ∧ Writes f f' level.index y

theorem Working.closesLoop {inner : Level} (h : Working cx B (O.add exit) s) (hl : Stores s bci level) (hinner : Stores s bci inner)
    (hhead : LoopBlock s head) (hexit : Blank B s exit) :
    Wp (cx.closeLoop level inner head exit) s fun _ s' =>
      Opens cx B O exit s s' ∧ ∀ w : Walk, s'.mod.Grows w.mod → ClosesLoop w s level inner head := by
  refine (h.loads hl.array.storable.1 .ref).bind fun parent s1 ⟨ha1, hparent, _, hd1⟩ => ?_
  refine (ha1.working.loads (hl.index.storable.1.mono ha1.proceeds.evolves) .i32).bind fun i s2 ⟨ha2, hi, _, hd2⟩ => ?_
  refine (ha2.working.loads (hinner.array.storable.1.mono (ha1.trans ha2).proceeds.evolves) .ref).bind fun child s3 ⟨ha3, hchild, _, hd3⟩ => ?_
  have hi3 := ha3.proceeds.use hi
  have huses : ∀ a ∈ [parent, i, child], ∃ ty, s3.mod.Use s3.cursor.block a ty := by
    simp only [forall_mem_cons]
    exact ⟨⟨_, ha3.proceeds.use (ha2.proceeds.use hparent)⟩, ⟨_, hi3⟩, ⟨_, hchild⟩, by simp⟩
  refine (ha3.working.emits (.of_uses huses (by simp))).bind fun _ s4 ⟨he4, _⟩ => ?_
  refine (he4.working.constants 1).bind fun one s5 ⟨ha5, hone, hd5⟩ => ?_
  refine (ha5.working.emits (i := { op := .add, ty := .i32, args := [i, one] })
    (.binary rfl (by simp) (ha5.proceeds.use (he4.proceeds.use hi3)) hone)).bind fun next s6 ⟨he6, _⟩ => ?_
  have ha := ((ha1.trans ha2).trans (ha3.trans he4.toAppends)).trans (ha5.trans he6.toAppends)
  have hl6 := hl.mono ha.proceeds.evolves
  refine (he6.working.stores hl6.index.storable he6.use).bind fun _ s7 ⟨ha7, hd7⟩ => ?_
  have ha := ha.trans ha7
  refine (ha7.working.jumps (hhead.mono ha.proceeds.evolves)).bind fun _ s8 ⟨hc8, hd8⟩ =>
    wp_modify.2 ⟨(ha.closes (hc8.moveTo exit)).opens h hexit, fun w hM f κ r x n r' g hat hr hx hn hlt hr' hset => ?_⟩
  have hM7 : s7.mod.Grows w.mod := hc8.moves.evolves.module.trans hM
  have hM6 := ha7.grows.trans hM7
  have hM4 := ha5.grows.trans (he6.grows.trans hM6)
  have hM2 := ha3.grows.trans (he4.grows.trans hM4)
  obtain ⟨f1, hat1, hr1, hp1⟩ := hd1 w f κ _ (ha2.grows.trans hM2) hat hr
  obtain ⟨f2, hat2, hr2, hx2⟩ := hd2 w f1 κ x hM2 hat1 ((hr1.slots _).trans hx)
  obtain ⟨f3, hat3, hr3, hc3⟩ := hd3 w f2 κ _ (he4.grows.trans hM4) hat2 (((hr2.slots _).trans (hr1.slots _)).trans hr')
  have hx3 := hr3.has hx2
  have hstore := he4.acts hM4 hat3 (by simp) (acts_storeElem (i := placed _ s3 s4 _) rfl
    (operands_of_has (.cons (hr3.has (hr2.has hp1)) (.cons hx3 (.cons hc3 .nil)))))
  rw [hn.int32] at hstore
  obtain ⟨f4, hat4, hr4⟩ := hstore.heap hat.bare hset
  obtain ⟨f5, hat5, hr5, hone5⟩ := hd5 w f4 _ (he6.grows.trans hM6) hat4
  obtain ⟨y, hadd, hy⟩ := hn.succ (y := .ofInt (1 : Int64).toInt32.toInt64) ⟨rfl, by decide⟩ hlt
  have hnext : Defines w.call w.mod (placed { op := .add, ty := .i32, args := [i, one] } s5 s6 next) f5 _ :=
    defines_compute rfl (operands_of_has (.cons (hr5.has (hr4.has hx3)) (.cons hone5 .nil)))
  obtain ⟨f6, hat6, hr6, hy6⟩ := he6.gives hM6 hat5 (by simp) (hadd ▸ hnext)
  obtain ⟨f7, hat7, hset7⟩ := hd7 w f6 _ y hM7 hat6 hy6 hl6.index.nonneg
  refine ⟨f7, y, hd8 w f7 _ hM hat7, hy, fun slot => ?_⟩
  rw [hset7.read?, hr6.slots, hr5.slots, hr4.slots, hr3.slots, hr2.slots, hr1.slots]

/-! ## The slots of the levels -/

/-- Temporaries of levels with different names are different slots. -/
theorem LevelTemp.ne {k k' : Nat} {p p' : Text} {a b : Slot} (h : LevelTemp s bci k p a) (h' : LevelTemp s bci k' p' b)
    (hlen : p.length = p'.length) (hne : p ≠ p' ∨ k ≠ k') : a ≠ b := by
  rintro rfl
  obtain ⟨n, rfl, hn⟩ := h
  obtain ⟨m, hm, hn'⟩ := h'
  obtain rfl : n = m := Int.ofNat_inj.1 (congrArg Slot.index hm)
  have heq := Option.mem_unique hn hn'
  unfold Context.levelTemp at heq
  simp only [append_assoc] at heq
  obtain ⟨hp, hk⟩ := append_inj (append_cancel_left (append_cancel_left heq)) hlen
  exact hne.elim (absurd hp) (absurd (Text.ofNat_injective hk))

/-- The slots of a level are not written to by the code of another level. -/
theorem Stores.apart {l : Level} (h : Stores s bci level) (h' : Stores s bci l) (hne : level.number ≠ l.number) :
    (level.array ≠ l.array ∧ level.array ≠ l.index) ∧ level.index ≠ l.array ∧ level.index ≠ l.index :=
  ⟨⟨h.array.ne h'.array rfl (.inr hne), h.array.ne h'.index rfl (.inl (by decide))⟩,
    h.index.ne h'.array rfl (.inl (by decide)), h.index.ne h'.index rfl (.inr hne)⟩

/-- Two frames differ in the arrays and the indices of the given levels at most. -/
def KeepsBut (levels : List Level) (f f' : Frame) : Prop :=
  ∀ slot, (∀ l ∈ levels, slot ≠ l.array ∧ slot ≠ l.index) → f'.read? slot = f.read? slot

theorem KeepsBut.trans {f'' : Frame} (h : KeepsBut levels f f') (h' : KeepsBut levels f' f'') : KeepsBut levels f f'' :=
  fun slot hs => (h' slot hs).trans (h slot hs)

theorem Writes.keepsBut {slot : Slot} (h : Writes f f' slot x)
    (hslot : ∃ l ∈ levels, slot = l.array ∨ slot = l.index) : KeepsBut levels f f' := by
  intro slot' hs
  rw [h, if_neg]
  rintro rfl
  obtain ⟨l, hl, heq | heq⟩ := hslot
  · exact (hs l hl).1 heq
  · exact (hs l hl).2 heq

/-- The lengths of the levels are in their slots. -/
def Measures (f : Frame) (levels : List Level) (dims : List (Text × Nat)) : Prop :=
  List.Forall₂ (fun l d => l.desc = d.1 ∧ ∃ x : Value, f.read? l.length = some x ∧ x.IsNat d.2) levels dims

theorem Measures.keeps {levels' : List Level} {dims : List (Text × Nat)} (h : Measures f levels dims)
    (hk : KeepsBut levels' f f') (hl : ∀ l ∈ levels, Stores s bci l) (hl' : ∀ l ∈ levels', Stores s bci l) :
    Measures f' levels dims := by
  refine ((forall₂_and_left _ _).2 ⟨hl, h⟩).imp fun l d ⟨hst, hdesc, x, hx, hn⟩ => ⟨hdesc, x, (hk _ fun l' hm => ?_).trans hx, hn⟩
  exact ⟨hst.length.ne (hl' l' hm).array rfl (.inl (by decide)), hst.length.ne (hl' l' hm).index rfl (.inl (by decide))⟩

/-! ## Nested loops -/

/-- **The loop over an array fills it with new trees.** The induction is over the number of elements that are left. -/
theorem ReachesBlock.loops {inner : Level} {dims : List (Text × Nat)}
    {body : BlockId} {y : Value} {n : Nat} {f0 : Frame} (hl : ∀ l ∈ level :: levels, Stores s bci l)
    (hnum : ∀ l ∈ levels, level.number < l.number) (hinner : levels.head? = some inner) (hm : Measures f0 levels dims)
    (hy : f0.read? level.length = some y) (hn : y.IsNat n)
    (htest : ∀ f κ x i, ReachesBlock w head f κ → f.read? level.index = some x → x.IsNat i → f.read? level.length = some y →
      ∃ f', ReachesBlock w (if i < n then body else exit) f' κ ∧ ∀ slot, f'.read? slot = f.read? slot)
    (hbody : ∀ f κ, ReachesBlock w body f κ → Measures f levels dims → ∃ f' g, At w s' f' { κ with heap := g } ∧
      Planted dims κ.heap g ∧ KeepsBut levels f f' ∧ f'.read? inner.array = some (.ofRef κ.heap.size))
    (hclose : ClosesLoop w s' level inner head) (left : Nat) {children : List (Ref × List Ref)} {g : Array Object}
    (hleft : children.length + left = n) (h : ReachesBlock w head f { κ with heap := g })
    (hf : Machine.Filling level.desc n dims κ.heap children g) (hx : f.read? level.index = some x) (hi : x.IsNat children.length)
    (harray : f.read? level.array = some (.ofRef κ.heap.size)) (hkeep : KeepsBut (level :: levels) f0 f) :
    ∃ f' g', ReachesBlock w exit f' { κ with heap := g' } ∧ Planted ((level.desc, n) :: dims) κ.heap g' ∧
      KeepsBut (level :: levels) f0 f' ∧ f'.read? level.array = some (.ofRef κ.heap.size) := by
  have hself : Stores s bci level := hl level mem_cons_self
  have hrest : ∀ l ∈ levels, Stores s bci l := fun l hm => hl l (mem_cons_of_mem _ hm)
  have hapart := fun l hm => hself.apart (hrest l hm) (Nat.ne_of_lt (hnum l hm))
  have hlen {f} (hk : KeepsBut (level :: levels) f0 f) : f.read? level.length = some y := (hk _ fun l hm =>
    ⟨hself.length.ne (hl l hm).array rfl (.inl (by decide)), hself.length.ne (hl l hm).index rfl (.inl (by decide))⟩).trans hy
  induction left generalizing f children g x with
  | zero =>
    obtain ⟨f', hf', hsame⟩ := htest f _ x _ h hx hi (hlen hkeep)
    rw [if_neg (by omega)] at hf'
    have hne : dims ≠ [] := by
      rintro rfl
      rw [forall₂_nil_right_iff.1 hm] at hinner
      cases hinner
    exact ⟨f', g, hf', hf.planted hleft hne, fun slot hs => (hsame slot).trans (hkeep slot hs), (hsame _).trans harray⟩
  | succ left ih =>
    obtain ⟨f1, hf1, hsame⟩ := htest f _ x _ h hx hi (hlen hkeep)
    rw [if_pos (by omega)] at hf1
    have hkeep1 : KeepsBut (level :: levels) f0 f1 := fun slot hs => (hsame slot).trans (hkeep slot hs)
    obtain ⟨f2, g2, hat2, hplant, hkeep2, hchild⟩ := hbody f1 _ hf1 (hm.keeps hkeep1 hrest hl)
    obtain ⟨g3, hset, hfill⟩ := hf.step hplant (by omega) κ
    have harray2 := ((hkeep2 _ fun l hm => (hapart l hm).1).trans (hsame _)).trans harray
    have hx2 := ((hkeep2 _ fun l hm => (hapart l hm).2).trans (hsame _)).trans hx
    obtain ⟨f3, z, hf3, hz, hw3⟩ := hclose f2 _ _ x _ _ g3 hat2 harray2 hx2 hi (by have := hn.lt; omega) hchild hset
    refine ih ?_ hf3 hfill ((hw3 _).trans (if_pos rfl)) (by simpa using hz) (((hw3 _).trans (if_neg ?_)).trans harray2) ?_
    · rw [length_append, length_singleton]
      omega
    · exact hself.array.ne hself.index rfl (.inl (by decide))
    · have hkeep2 : KeepsBut (level :: levels) f1 f2 := fun slot hs => hkeep2 slot fun l hm => hs l (mem_cons_of_mem _ hm)
      exact (hkeep1.trans hkeep2).trans (hw3.keepsBut ⟨level, mem_cons_self, .inr rfl⟩)

theorem At.of_block (h : At w s f κ) (hc : s'.cursor = s.cursor)
    (hk : s'.mod.block? s.cursor.block = s.mod.block? s.cursor.block) : At w s' f κ := by
  obtain ⟨σ, ⟨c, k, hp, hk0, hb, hx⟩, hσ⟩ := h
  exact ⟨σ, ⟨c, k, hp, by rw [hc, hk, hk0], hb.trans (by rw [hc]), hx⟩, hσ⟩

/-- **The nested loops plant a tree of arrays.** -/
theorem Working.buildsLevels (hbci : (B.start : Int) ≤ bci ∧ bci < B.stop) (h : Working cx B O s)
    (hl : ∀ l ∈ levels, Stores s bci l) (hnum : levels.Pairwise fun l l' => l.number < l'.number) :
    Wp (cx.buildLevels bci levels) s fun _ s' => Working cx B O s' ∧ Moves O.blocks s s' ∧
      ∀ w f κ dims, s'.mod.Grows w.mod → At w s f κ → Measures f levels dims → ∀ l, levels.head? = some l →
        ∃ f' g, At w s' f' { κ with heap := g } ∧ Planted dims κ.heap g ∧ KeepsBut levels f f' ∧
          f'.read? l.array = some (.ofRef κ.heap.size) := by
  fun_induction Context.buildLevels cx bci levels generalizing s O with
  | case1 => exact ⟨h, h.appends.moves, fun w f κ dims _ _ _ l hl => by cases hl⟩
  | case2 level =>
    have hself := hl level mem_cons_self
    refine (h.allocsLevel hself).mono fun _ s1 ⟨ha, hd⟩ => ⟨ha.working, ha.moves, ?_⟩
    intro w f κ dims hM hat hm l hhead
    obtain rfl : level = l := Option.some.inj hhead
    obtain ⟨⟨cls, n⟩, _, ⟨rfl, x, hx, hn⟩, hnil, rfl⟩ := forall₂_cons_left_iff.1 hm
    cases hnil
    obtain ⟨f', a, hat', ha, hw⟩ := hd w f κ x n hM hat hx hn
    exact ⟨f', _, hat', .leaf ha, hw.keepsBut ⟨level, mem_cons_self, .inl rfl⟩, (hw _).trans (if_pos rfl)⟩
  | case3 level inner rest ih =>
    have hself := hl level mem_cons_self
    obtain ⟨hlt, hnum⟩ := pairwise_cons.1 hnum
    refine (h.allocsLevel hself).bind fun _ s1 ⟨ha1, hd1⟩ => ?_
    refine ha1.working.newLoopBlocks hbci level fun head body exit s4 hw4 hhead hbody hexit hm4 hc4 => ?_
    have hg4 := hm4.evolves.module
    have hcode4 := hm4.others _ mem_cons_self
    have hm4 : Moves O.blocks s s4 := ha1.moves.trans (hm4.subset fun c hc => mem_cons_of_mem _ hc)
    have hl4 := fun x hx => (hl x hx).mono hm4.evolves
    have hself4 := hl4 level mem_cons_self
    refine (hw4.startsLoop hself4 hhead).bind fun _ s5 ⟨ho5, hd5⟩ => ?_
    have hexit5 := hexit.moves ho5.moves (mem_cons_of_mem _ mem_cons_self)
    refine (ho5.working.testsLoop (hself4.mono ho5.moves.evolves) (hbody.moves ho5.moves mem_cons_self) hexit5).bind fun _ s6 ⟨ho6, hd6⟩ => ?_
    have hm6' : Moves (exit :: O.blocks) s4 s6 := (ho5.moves.subset fun c hc => mem_cons_of_mem _ hc).trans ho6.moves
    have hl6 := fun x hx => (hl4 x hx).mono hm6'.evolves
    refine (ih ho6.working (fun x hx => hl6 x (mem_cons_of_mem _ hx)) hnum).bind fun _ s7 ⟨hw7, hm7, hd7⟩ => ?_
    have hm7' := hm6'.trans hm7
    have hl7 := fun x hx => (hl6 x hx).mono hm7.evolves
    refine (hw7.closesLoop (hl7 level mem_cons_self) (hl7 inner (by simp)) (hhead.loopBlock.mono hm7'.evolves) (hexit.moves hm7' mem_cons_self)).mono
      fun _ s8 ⟨ho8, hd8⟩ => ⟨ho8.working, ?_, ?_⟩
    · exact hm4.trans ((hm7'.subset fun c hc => mem_cons_of_mem _ hc).trans ho8.moves)
    intro w f κ dims hM hat hm l hfirst
    obtain rfl : level = l := Option.some.inj hfirst
    obtain ⟨⟨cls, n⟩, dims, ⟨rfl, y, hy, hn⟩, hinner, rfl⟩ := forall₂_cons_left_iff.1 hm
    have hM7 := ho8.moves.evolves.module.trans hM
    have hM6 := hm7.evolves.module.trans hM7
    have hM5 := ho6.moves.evolves.module.trans hM6
    have hM1 := hg4.trans (ho5.moves.evolves.module.trans hM5)
    obtain ⟨f1, a, hat1, ha, hset1⟩ := hd1 w f κ y n hM1 hat hy hn
    obtain ⟨f5, x, hf5, hx, hset5⟩ := hd5 w f1 _ hM5 (hat1.of_block hc4 hcode4)
    have harray5 := (hset5 _).trans ((if_neg (hself.array.ne hself.index rfl (.inl (by decide)))).trans ((hset1 _).trans (if_pos rfl)))
    obtain ⟨f8, g, hf8, hplant, hkeep, harray⟩ := ReachesBlock.loops hl hlt rfl hinner hy hn
      (fun f κ x i hf hx hi hy => hd6 w f κ x y i n hM6 (hf.at ho5) hx hi hy hn)
      (fun f κ hf hm => hd7 w f κ dims hM7 (hf.at ho6) hm inner rfl)
      (hd8 w hM) n
      (show ([] : List (Ref × List Ref)).length + n = n from Nat.zero_add n) hf5 (.start ha) ((hset5 _).trans (if_pos rfl)) hx
      harray5 ((hset1.keepsBut ⟨level, mem_cons_self, .inl rfl⟩).trans (hset5.keepsBut ⟨level, mem_cons_self, .inr rfl⟩))
    exact ⟨f8, g, hf8.at ho8, hplant, hkeep, harray⟩

/-! ## The whole instruction -/

theorem Working.names (h : Working cx B O s) (number : Nat) (part : Text) : Wp (temp (Context.levelTemp bci number part)) s
    fun slot s' => Appends cx B O s s' ∧ LevelTemp s' bci number part slot ∧ ∀ w f κ, At w s f κ → At w s' f κ := by
  have hblock (c : BlockId) : (s.builder.temp (Context.levelTemp bci number part)).2.mod.block? c = s.mod.block? c := by
    obtain ⟨-, -, -, hblocks, -⟩ := s.builder.temp_spec (Context.levelTemp bci number part)
    unfold Module.block?
    rw [hblocks]
  refine ((h.good.temp _).and (wp_modifyGet.2 ?_)).mono fun slot s' ⟨⟨hg, hk, hl⟩, hat⟩ => ⟨h.keeps hg hk, hl, hat⟩
  exact fun w f κ hat => hat.of_block rfl (hblock _)

theorem Working.newsLevel (h : Working cx B O s) (desc : Text) (number : Nat) (hlen : s.mod.Use s.cursor.block length ty) :
    Wp (cx.newLevel bci desc number length) s fun level s' => Appends cx B O s s' ∧ Stores s' bci level ∧
      level.number = number ∧ level.desc = desc.drop number ∧ ∀ w f κ x, s'.mod.Grows w.mod → At w s f κ → Has s f length x →
        ∃ f', At w s' f' κ ∧ Sets s s' f f' level.length x := by
  refine (h.names number "_n").bind fun lengthSlot s1 ⟨ha1, hl1, hd1⟩ => ?_
  refine (ha1.working.names number "_a").bind fun array s2 ⟨ha2, hl2, hd2⟩ => ?_
  refine (ha2.working.names number "_i").bind fun index s3 ⟨ha3, hindex, hd3⟩ => ?_
  have ha := (ha1.trans ha2).trans ha3
  have hl3 := (hl1.mono ha2.proceeds.evolves).mono ha3.proceeds.evolves
  refine (ha3.working.stores hl3.storable (ha.proceeds.use hlen)).bind fun _ s4 ⟨ha4, hd4⟩ =>
    ⟨ha.trans ha4, .mono ha4.proceeds.evolves ⟨hl3, hl2.mono ha3.proceeds.evolves, hindex⟩, rfl, rfl, fun w f κ x hM hat hx => ?_⟩
  obtain ⟨f', hat', hset⟩ := hd4 w f κ x hM (hd3 w f κ (hd2 w f κ (hd1 w f κ hat))) (hx.mono ha.grows) hl3.nonneg
  exact ⟨f', hat', fun hv => hset.has (hv.mono ha.grows), hset.read?⟩

/-- The classes and the lengths of the levels from a number on. The class of a level has that many brackets less. -/
def dimensionsFrom (desc : Text) (k : Nat) (xs : List Value) : List (Text × Nat) :=
  (xs.zipIdx k).map fun p => (desc.drop p.2, p.1.int32.toInt.toNat)

theorem Working.newsLevels (h : Working cx B O s) (desc : Text) (lengths : List ValueId) (k : Nat)
    (hlen : ∀ v ∈ lengths, ∃ ty, s.mod.Use s.cursor.block v ty) :
    Wp ((lengths.zipIdx k).mapM fun (length, n) => cx.newLevel bci desc n length) s fun levels s' => Appends cx B O s s' ∧
      (∀ l ∈ levels, Stores s' bci l ∧ k ≤ l.number) ∧ (levels.Pairwise fun l l' => l.number < l'.number) ∧ levels.length = lengths.length ∧
      ∀ w f κ xs, s'.mod.Grows w.mod → At w s f κ → Forall₂ (Has s f) lengths xs →
        (∀ x ∈ xs, x.IsNat x.int32.toInt.toNat) → ∃ f', At w s' f' κ ∧ (∀ {v x}, Has s f v x → Has s' f' v x) ∧
          (∀ slot, (∀ l ∈ levels, slot ≠ l.length) → f'.read? slot = f.read? slot) ∧ Measures f' levels (dimensionsFrom desc k xs) := by
  induction lengths generalizing s k with
  | nil =>
    refine ⟨h.appends, by simp, .nil, rfl, fun w f κ xs _ hat hxs _ => ⟨f, hat, id, fun _ _ => rfl, ?_⟩⟩
    cases hxs
    exact .nil
  | cons v lengths ih =>
    rw [zipIdx_cons, mapM_cons]
    obtain ⟨ty, hu⟩ := hlen v mem_cons_self
    refine (h.newsLevel desc k hu).bind fun level s1 ⟨ha1, hst1, hnum, hdesc, hd1⟩ => ?_
    refine (ih ha1.working (k + 1) fun v hv => ?_).bind fun levels s2 ⟨ha2, hst2, hpair, hcount, hd2⟩ => ?_
    · obtain ⟨ty, hu⟩ := hlen v (mem_cons_of_mem _ hv)
      exact ⟨ty, ha1.proceeds.use hu⟩
    have hself := hst1.mono ha2.proceeds.evolves
    have hlt : ∀ l ∈ levels, level.number < l.number := fun l hl => by
      have := (hst2 l hl).2
      omega
    refine ⟨ha1.trans ha2, forall_mem_cons.2 ⟨⟨hself, hnum.ge⟩, fun l hl => ⟨(hst2 l hl).1, ?_⟩⟩,
      pairwise_cons.2 ⟨hlt, hpair⟩, congrArg (· + 1) hcount, fun w f κ xs hM hat hxs hnat => ?_⟩
    · exact (Nat.le_succ k).trans (hst2 l hl).2
    obtain ⟨x, xs, hx, htail, rfl⟩ := forall₂_cons_left_iff.1 hxs
    obtain ⟨hn, hnat⟩ := forall_mem_cons.1 hnat
    obtain ⟨f1, hat1, hset⟩ := hd1 w f κ x (ha2.grows.trans hM) hat hx
    obtain ⟨f2, hat2, hhas, hkeep, hm⟩ := hd2 w f1 κ xs hM hat1 (htail.imp fun _ _ hx => hset.has hx) hnat
    refine ⟨f2, hat2, fun hv => hhas (hset.has hv), fun slot hs => ?_, .cons ⟨hdesc, x, ?_, hn⟩ hm⟩
    · obtain ⟨hne, hs⟩ := forall_mem_cons.1 hs
      rw [hkeep slot hs, hset.read?, if_neg hne]
    · rw [hkeep _ fun l hl => hself.length.ne (hst2 l hl).1.length rfl (.inr (Nat.ne_of_lt (hlt l hl))), hset.read?, if_pos rfl]

/-- A heap has grown by an array of several dimensions, which is on top of the stack. The rest of the stack and the local
variables are as before. -/
structure Builds (w : Walk) (s' : State) (f : Frame) (κ : Machine.State) (dims : List (Text × Nat)) (below : List Value)
    (f' : Frame) (g : Array Machine.Object) : Prop where
  stands : At w s' f' { κ with heap := g }
  planted : Planted dims κ.heap g
  stack : Holds s' f' (.ofRef κ.heap.size :: below)
  locals : ∀ n : Nat, f'.read? ⟨.local, n⟩ = f.read? ⟨.local, n⟩

/-- The code for several levels builds the array and brings the stack back. -/
theorem Ready.allocsLevels (h : Ready cx B O s) (hbci : (B.start : Int) ≤ bci ∧ bci < B.stop) (desc : Text)
    {lengths : List ValueId} (hne : lengths ≠ []) (hlen : ∀ v ∈ lengths, ∃ ty, s.mod.Use s.cursor.block v ty) :
    Wp (cx.allocLevels bci desc lengths) s fun _ s' => Lifts cx B O s s' ∧ ∀ w f κ xs below, s'.mod.Grows w.mod → At w s f κ →
      Forall₂ (Has s f) lengths xs → (∀ x ∈ xs, x.IsNat x.int32.toInt.toNat) → Holds s f below →
      ∃ f' g, Builds w s' f κ (dimensionsFrom desc 0 xs) below f' g := by
  refine (h.newsLevels desc lengths 0 hlen).bind fun levels s1 ⟨ha1, hst1, hpair, hcount, hd1⟩ => ?_
  rw [wp_bind, wp_stackShape]
  refine ((h.appends ha1).spills).bind fun _ s2 ⟨⟨ha2, hmax⟩, hd2⟩ => ?_
  have hst2 : ∀ l ∈ levels, Stores s2 bci l := fun l hl => (hst1 l hl).1.mono ha2.proceeds.evolves
  refine (ha2.working.buildsLevels hbci hst2 hpair).bind fun _ s3 ⟨hw3, hm3, hd3⟩ => ?_
  have hlevels : levels ≠ [] := fun hnil => hne (length_eq_zero_iff.1 (by rw [← hcount, hnil]; rfl))
  obtain ⟨level, rest, rfl⟩ := exists_cons_of_ne_nil hlevels
  have hst3 := fun l hl => (hst2 l hl).mono hm3.evolves
  refine wp_bind.2 (wp_require rfl ((hw3.loads (hst3 level mem_cons_self).array.storable.1 .ref).bind fun result s4 ⟨ha4, hresult, _, hd4⟩ => ?_))
  replace hmax := hmax.trans (hm3.trans ha4.moves).evolves.maxStack
  refine (ha4.working.reloads (by simpa using .inl hmax)).bind fun _ s5 ⟨ha5, hd5⟩ => ?_
  refine (ha5.ready.pushes (ha5.proceeds.use hresult)).mono fun _ s6 ⟨ha6, hs6⟩ => ⟨?_, fun w f κ xs below hM hat hxs hnat hbelow => ?_⟩
  · have hm := (ha1.moves.trans ha2.moves).trans (hm3.trans ha4.moves)
    have ha := ha5.trans ha6
    exact ⟨ha.ready, hm.evolves.trans ha.proceeds.evolves, ha.proceeds.bci.trans hm.bci, ha.proceeds.done.trans hm.done⟩
  subst hs6
  have hM5 : s5.mod.Grows w.mod := hM
  have hM3 := ha4.grows.trans (ha5.grows.trans hM5)
  have hM2 := hm3.evolves.module.trans hM3
  obtain ⟨f1, hat1, hhas1, hkeep1, hmeas1⟩ := hd1 w f κ xs (ha2.grows.trans hM2) hat hxs hnat
  have hbelow1 : Holds s1 f1 below := by
    unfold Holds
    rw [ha1.stack]
    exact hbelow.imp fun _ _ hx => hhas1 hx
  obtain ⟨f2, hat2, hspill, honstack⟩ := hd2 w f1 κ below hM2 hat1 hbelow1
  have hmeas2 : Measures f2 (level :: rest) (dimensionsFrom desc 0 xs) :=
    ((forall₂_and_left _ _).2 ⟨hst2, hmeas1⟩).imp fun l d ⟨hst, hdesc, x, hx, hn⟩ =>
      ⟨hdesc, x, (hspill.slots _ (by rw [hst.length.space]; decide)).trans hx, hn⟩
  obtain ⟨f3, g, hat3, hplant, hkeep3, harray⟩ := hd3 w f2 κ _ hM3 hat2 hmeas2 level rfl
  -- the slots of the levels are neither stack slots nor local variables
  have hother {slot : Slot} (hs : slot.space ≠ .temp) : f3.read? slot = f2.read? slot := hkeep3 slot fun l hl =>
    ⟨fun heq => hs (heq ▸ (hst2 l hl).array.space), fun heq => hs (heq ▸ (hst2 l hl).index.space)⟩
  obtain ⟨f4, hat4, hr4, hv4⟩ := hd4 w f3 _ _ (ha5.grows.trans hM5) hat3 harray
  obtain ⟨f5, hat5, hholds, hr5⟩ := hd5 w f4 _ below hM5 hat4
    (fun n x hx => ((hr4.slots _).trans (hother (by simp))).trans (honstack n x hx)) (by simp [hbelow1.length_eq])
  refine ⟨f5, g, hat5.withStack _, hplant, hholds.push (hr5.has hv4), fun n => ?_⟩
  rw [hr5.slots, hr4.slots, hother (by simp), hspill.slots _ (by simp), hkeep1 _ fun l hl heq => ?_]
  have := (hst2 l hl).length.space
  rw [← heq] at this
  cases this

/-- The lengths are checked, the outermost first. -/
theorem Working.checksLengths (h : Working cx B O s) (lengths : List ValueId)
    (hlen : ∀ v ∈ lengths, ∃ ty, s.mod.Use s.cursor.block v ty) :
    Wp (lengths.forM cx.checkNonNeg) s fun _ s' => Appends cx B O s s' ∧ ∀ w f κ xs, s'.mod.Grows w.mod → At w s f κ →
      Forall₂ (Has s f) lengths xs → (∀ x ∈ xs, IsInt x) →
      Does w s.cursor.bci κ (xs.forM checkNonNeg) s' fun _ f' => Retains s s' f f' := by
  induction lengths generalizing s with
  | nil =>
    refine ⟨h.appends, fun w f κ xs _ hat hxs _ => ?_⟩
    cases hxs
    exact .pure hat (.of_grows (.refl _))
  | cons v lengths ih =>
    obtain ⟨ty, hu⟩ := hlen v mem_cons_self
    refine (h.checksNonNeg hu).bind fun _ s1 ⟨ha1, hd1⟩ => ?_
    refine (ih ha1.working fun v hv => ?_).mono fun _ s2 ⟨ha2, hd2⟩ => ⟨ha1.trans ha2, fun w f κ xs hM hat hxs hint => ?_⟩
    · obtain ⟨ty, hu⟩ := hlen v (mem_cons_of_mem _ hv)
      exact ⟨ty, ha1.proceeds.use hu⟩
    obtain ⟨x, xs, hx, htail, rfl⟩ := forall₂_cons_left_iff.1 hxs
    obtain ⟨hi, hint⟩ := forall_mem_cons.1 hint
    refine (hd1 w f κ x (ha2.grows.trans hM) hat hx hi).bind fun _ f1 κ1 hat1 hr1 => ?_
    have hrest := hd2 w f1 κ1 xs hM hat1 (htail.imp fun _ _ hx => hr1.has hx) hint
    rw [ha1.proceeds.bci] at hrest
    exact hrest.mono fun _ f2 hr2 => hr1.trans hr2

theorem run_checkLengths (h : ∃ x ∈ xs, x.int32 < 0) (τ : Machine.State) : (xs.forM checkNonNeg).run τ =
    (.error (.thrown (some τ.heap.size)), { τ with heap := τ.heap.push { cls := negativeSizeClass } }) := by
  induction xs with
  | nil => simp at h
  | cons x xs ih =>
    change (checkNonNeg x >>= fun _ => xs.forM checkNonNeg).run τ = _
    unfold checkNonNeg
    split
    · rfl
    rename_i hx
    rw [pure_bind]
    obtain ⟨y, hy, hneg⟩ := h
    rcases mem_cons.1 hy with rfl | hy
    · exact absurd hneg hx
    · exact ih ⟨y, hy, hneg⟩

theorem checkLengths_eq_pure (h : ∀ x ∈ xs, 0 ≤ x.int32) : xs.forM checkNonNeg = pure () := by
  induction xs with
  | nil => rfl
  | cons x xs ih =>
    obtain ⟨hx, h⟩ := forall_mem_cons.1 h
    change (checkNonNeg x >>= fun _ => xs.forM checkNonNeg) = _
    rw [checkNonNeg, if_neg (Int32.not_lt.2 hx), pure_bind, ih h]

theorem IsInt.isNat (h : IsInt x) (hx : 0 ≤ x.int32) : x.IsNat x.int32.toInt.toNat := by
  have hpos : 0 ≤ x.int32.toInt := Int32.le_iff_toInt_le.1 hx
  have hlt : x.int32.toInt < 2 ^ 31 := x.int32.toInt_lt
  refine ⟨?_, by omega⟩
  rw [← h, Int32.toInt_toInt64, Int.toNat_of_nonneg hpos]

/-- **The code of the instruction raises an exception if a length is negative, and it builds the array otherwise.** -/
theorem Ready.liftsMultiArray (h : Ready cx B O s) {i : Instruction} (hi : s.cursor.bci = i.bci) :
    Wp (cx.liftMultiArray i) s fun _ s' => Lifts cx B O s s' ∧ ∃ cls, cx.method.pool.getClass i.poolIndex = .ok cls ∧
      Context.hasDimensions cls.name i.immediate.toNat = true ∧
      ∀ w f κ xs below, s'.mod.Grows w.mod → At w s f κ → xs.length = i.immediate.toNat → (∀ x ∈ xs, IsInt x) →
        Holds s f (xs.reverse ++ below) →
        ((∃ x ∈ xs, x.int32 < 0) → Stops w i.bci (.thrown (some κ.heap.size))
          { κ with heap := κ.heap.push { cls := negativeSizeClass } }) ∧
        ((∀ x ∈ xs, 0 ≤ x.int32) → ∃ f' g, Builds w s' f κ (dimensionsFrom cls.name 0 xs) below f' g) := by
  refine wp_bind.2 (wp_poolClass (by decide) fun cls hcls => ?_)
  refine wp_bind.2 (wp_refuseIf trivial fun hdims => ?_)
  replace hdims : Context.hasDimensions cls.name i.immediate.toNat = true := by simpa using hdims
  refine (h.popsAll _).bind fun lengths s1 ⟨ha1, popped, rest, hst, hs1, hlengths, htys⟩ => ?_
  subst hs1
  have hcount : popped.length = i.immediate.toNat := by simpa using congrArg List.length htys
  have huse : ∀ v ∈ lengths, ∃ ty, (s.withStack rest).mod.Use s.cursor.block v ty := fun v hv => by
    obtain ⟨e, he, rfl⟩ := mem_map.1 (hlengths ▸ hv)
    exact ⟨e.ty, h.stack e (hst ▸ mem_append_left _ (mem_reverse.2 he))⟩
  refine (ha1.ready.checksLengths lengths huse).bind fun _ s2 ⟨ha2, hd2⟩ => ?_
  have ha := ha1.trans (ha1.ready.advance ha2)
  have huse2 : ∀ v ∈ lengths, ∃ ty, s2.mod.Use s2.cursor.block v ty := fun v hv => by
    obtain ⟨ty, hu⟩ := huse v hv
    exact ⟨ty, ha2.proceeds.use hu⟩
  -- behind the checks it is left to build the array
  refine Wp.mono (P := fun _ s' => Lifts cx B O s2 s' ∧
      ∀ w f κ xs below, s'.mod.Grows w.mod → At w s2 f κ → Forall₂ (Has s2 f) lengths xs →
        (∀ x ∈ xs, x.IsNat x.int32.toInt.toNat) → Holds s2 f below →
        ∃ f' g, Builds w s' f κ (dimensionsFrom cls.name 0 xs) below f' g) ?_ fun _ s' hs' => ?_
  rotate_left
  · obtain ⟨hl, hd⟩ := hs'
    refine ⟨ha.then hl, cls, hcls, hdims, fun w f κ xs below hM hat hlen hint hx => ?_⟩
    obtain ⟨htop, hbelow⟩ := hx.split hst (hlen.trans hcount.symm)
    have htop : Forall₂ (Has (s.withStack rest) f) lengths xs := by
      rw [hlengths, forall₂_map_left_iff]
      exact htop
    have hcheck := hd2 w f κ xs (hl.evolves.module.trans hM) (hat.withStack rest) htop hint
    rw [show (s.withStack rest).cursor.bci = i.bci from hi] at hcheck
    refine ⟨fun hneg => ?_, fun hpos => ?_⟩
    · have hstop := hcheck κ hat.bare
      rw [run_checkLengths hneg] at hstop
      have hbare {o : Object} : { κ with heap := κ.heap.push o }.bare = { κ.bare with heap := κ.heap.push o } := rfl
      dsimp only at hstop
      rwa [hbare, hat.bare] at hstop
    · rw [checkLengths_eq_pure hpos] at hcheck
      obtain ⟨f2, hat2, hr2⟩ := hcheck.of_pure hat.bare
      obtain ⟨f', g, hat', hplant, hstack, hlocals⟩ := hd w f2 κ xs below hM hat2 (htop.imp fun _ _ hx => hr2.has hx)
        (fun x hx => (hint x hx).isNat (hpos x hx)) (hr2.holds ha2.stack hbelow)
      exact ⟨f', g, hat', hplant, hstack, fun n => (hlocals n).trans (hr2.slots _)⟩
  split
  · rename_i length _ _
    obtain ⟨ty, hu⟩ := huse2 length mem_cons_self
    refine (ha.ready.pushesArray cls.name hu).mono fun _ s3 ⟨ha3, hd3⟩ => ⟨ha3.lifts, fun w f κ xs below hM hat hxs hnat hbelow => ?_⟩
    obtain ⟨x, _, hx, hnil, rfl⟩ := forall₂_cons_left_iff.1 hxs
    cases hnil
    obtain ⟨f', a, hat', hzeros, hstack, hslots⟩ := hd3 w f κ x _ below hM hat hx (hnat x mem_cons_self) hbelow
    exact ⟨f', _, hat', .leaf hzeros, hstack, fun n => hslots _⟩
  · have hne : lengths ≠ [] := by
      -- the class has as many dimensions as lengths are popped, and at least one
      rintro rfl
      rw [← hcount, map_eq_nil_iff.1 hlengths.symm] at hdims
      unfold Context.hasDimensions at hdims
      split at hdims <;> simp at hdims
    exact ha.ready.allocsLevels (hi ▸ h.here) cls.name hne huse2

end Bytelift.Lift
