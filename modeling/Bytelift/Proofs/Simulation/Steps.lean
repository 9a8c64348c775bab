import Bytelift.Proofs.Lift.Cursor
import Bytelift.Proofs.Machine.Execution
import Bytelift.Proofs.Simulation.Track

/-!
# What the code at the cursor does

For each step that works on the block at the cursor, what the appended code does to a run that stands there:
which value it computes, which slot it sets, and that everything else stays. A frame holds the operand stack
(`Holds`) if the values on the symbolic stack have the given values in it.

Results:
* `Working.emits`: **an instruction that is appended is executed**.
-/

namespace Bytelift.Lift

open Ir List Machine Context Frame

variable {cx : Context} {B : CodeBlock} {O : Rest} {s s' s'' : State} {w : Walk} {f f' f'' : Frame} {κ : Machine.State}

/-! ## Values and slots -/

/-- A value is defined, and a frame has it. -/
def Has (s : State) (f : Frame) (v : ValueId) (x : Value) : Prop :=
  (∃ i, s.mod.inst? v = some i) ∧ lookup? f.values v = some x

theorem Has.mono {v : ValueId} {x : Value} (h : Has s f v x) (hg : s.mod.Grows s'.mod) : Has s' f v x := by
  obtain ⟨⟨i, hi⟩, hx⟩ := h
  exact ⟨⟨i, hg.inst hi⟩, hx⟩

/-- A step keeps the values and the slots of a frame. -/
structure Retains (s s' : State) (f f' : Frame) : Prop where
  has : ∀ {v x}, Has s f v x → Has s' f' v x
  slots : ∀ slot, f'.read? slot = f.read? slot

theorem Retains.trans (h : Retains s s' f f') (h' : Retains s' s'' f' f'') : Retains s s'' f f'' :=
  ⟨fun hv => h'.has (h.has hv), fun slot => (h'.slots slot).trans (h.slots slot)⟩

theorem Retains.of_grows (hg : s.mod.Grows s'.mod) : Retains s s' f f := ⟨fun hv => hv.mono hg, fun _ => rfl⟩

theorem Appends.grows (h : Appends cx B O s s') : s.mod.Grows s'.mod := h.proceeds.evolves.module

theorem Advances.grows (h : Advances cx B O s s') : s.mod.Grows s'.mod := h.proceeds.evolves.module

/-! ## Appending -/

/-- An instruction as it is placed at the cursor. -/
abbrev placed (i : Inst) (s s' : State) (v : ValueId) : Inst :=
  { i with bci := s.cursor.bci, id := v, block := s'.cursor.block }

/-- An instruction is appended at the cursor, and a run that stands there comes to it. -/
structure Emits (cx : Context) (B : CodeBlock) (O : Rest) (s s' : State) (v : ValueId) (i : Inst) : Prop extends
    Appends cx B O s s' where
  use : s'.mod.Use s'.cursor.block v i.ty
  inst : s'.mod.inst? v = some (placed i s s' v)
  fresh : s.mod.inst? v = none
  comes : ∀ {w : Walk} {f κ}, s'.mod.Grows w.mod → At w s f κ → Comes w s' (placed i s s' v) f κ

/-- The run goes on behind an instruction that may throw. -/
theorem Working.flushes (h : Working cx B O s) :
    Wp Context.flushPending s fun _ s' => s'.mod.insts = s.mod.insts ∧
      ∀ w f κ, s'.mod.Grows w.mod → At w s f κ → At w s' f κ := by
  refine wp_bind.2 (wp_get.2 ?_)
  obtain ⟨k, hk, -, -, -⟩ := h.isOpen
  cases s.cursor.pending with
  | none => exact ⟨rfl, fun _ _ _ _ hat => hat⟩
  | some c =>
    obtain ⟨hk1, hold, hblank, -⟩ := block?_split hk c
    refine wp_bind.2 (wp_modifyGet.2 (wp_bind.2 (wp_closeFaulting hk1 ⟨?_, fun _ _ _ hM hat => ?_⟩)))
    · exact Module.insts_modifyBlock _ _ _
    · exact hat.split hM hk hold rfl hblank rfl

/-- **An instruction that is appended is executed.** -/
theorem Working.emits (h : Working cx B O s) {i : Inst} (hi : Fitting O.depth s i) :
    Wp (cx.emit i) s fun v s' => Emits cx B O s s' v i ∧ (i.op.mayThrow = false → s'.cursor.pending = none) := by
  have hrun : Wp (cx.emit i) s fun v s' => s.mod.inst? v = none ∧
      ∀ (w : Walk) f κ j, s'.mod.Grows w.mod → At w s f κ → s'.mod.inst? v = some j → Comes w s' j f κ := by
    refine (h.flushPending.and h.flushes).bind fun _ s1 ⟨⟨ha, _⟩, hinsts, hat1⟩ => ?_
    obtain ⟨k, hk, ht, -, -⟩ := ha.working.isOpen
    refine wp_bind.2 (wp_get.2 (wp_bind.2 (wp_emitIn hk ⟨?_, fun w f κ j hM hat hj => ?_⟩)))
    · rw [hinsts]
      cases hj : s.mod.inst? s.mod.insts.size with
      | none => rfl
      | some j => exact absurd (Module.inst?_lt hj).2 (Int.lt_irrefl _)
    let j1 : Inst := { i with bci := s1.cursor.bci }
    let s2 : State := { s1 with builder := (s1.builder.emit s1.cursor.block j1).2 }
    have hk2 : s2.mod.block? s1.cursor.block = some { k with insts := k.insts.push s1.mod.insts.size } :=
      block?_emit_self hk j1
    have hg1 : s1.mod.Grows w.mod := (Module.Grows.emit hk ht j1).trans hM
    exact (hat1 w f κ hg1 hat).comes hM hk rfl hk2 hj
  refine ((h.emit hi).and hrun).mono fun v s' ⟨⟨ha, hu, ⟨k, _, _, hinst⟩, hp⟩, hfresh, hcomes⟩ => ?_
  rw [ha.proceeds.bci] at hinst
  exact ⟨⟨ha, hu, hinst, hfresh, fun {w f κ} hM hat => hcomes w f κ _ hM hat hinst⟩, hp⟩

section Emits

variable {v a : ValueId} {i : Inst} {x y : Value}

theorem Emits.retains (h : Emits cx B O s s' v i) (hM : s'.mod.Grows w.mod) (hat : At w s f κ) (x : Value) :
    Retains s s' f (f.define (placed i s s' v) x) ∧ Has s' (f.define (placed i s s' v) x) v x := by
  have hb := Module.inst?_lt (hM.inst h.inst)
  refine ⟨⟨fun {u y} ⟨⟨j, hj⟩, hy⟩ => ⟨⟨j, h.grows.inst hj⟩, ?_⟩, read?_define _ _ _⟩, ⟨_, h.inst⟩, ?_⟩
  · have hne : u ≠ v := by
      rintro rfl
      rw [h.fresh] at hj
      cases hj
    rw [lookup?_define_ne hne hb.1, hy]
  · refine lookup?_define_self hb.1 ?_
    rw [hat.size (h.grows.trans hM)]
    exact hb.2

theorem Emits.defines (h : Emits cx B O s s' v i) (hM : s'.mod.Grows w.mod) (hat : At w s f κ) (hop : i.op ≠ .call)
    {x : RunM Value} (hx : Defines w.call w.mod (placed i s s' v) f x) :
    Does w s.cursor.bci κ x s' fun r f' => Retains s s' f f' ∧ Has s' f' v r := by
  have hd := (h.comes hM hat).does hop
  rw [hx] at hd
  refine hd.of_map.mono fun r f' hf' => ?_
  subst hf'
  exact h.retains hM hat r

theorem Emits.acts (h : Emits cx B O s s' v i) (hM : s'.mod.Grows w.mod) (hat : At w s f κ) (hop : i.op ≠ .call)
    {x : RunM Unit} (hx : Acts w.call w.mod (placed i s s' v) f x) :
    Does w s.cursor.bci κ x s' fun _ f' => Retains s s' f f' := by
  have hd := (h.comes hM hat).does hop
  rw [hx] at hd
  refine hd.of_map.mono fun _ f' hf' => ?_
  subst hf'
  exact .of_grows h.grows

/-- A step sets one slot and keeps everything else. -/
structure Sets (s s' : State) (f f' : Frame) (slot : Slot) (x : Value) : Prop where
  has : ∀ {v x}, Has s f v x → Has s' f' v x
  read? : ∀ slot', f'.read? slot' = if slot' = slot then some x else f.read? slot'

/-- The code gives a value to `v`. -/
def Gives (w : Walk) (s s' : State) (f : Frame) (κ : Machine.State) (v : ValueId) (x : Value) : Prop :=
  ∃ f', At w s' f' κ ∧ Retains s s' f f' ∧ Has s' f' v x

theorem Emits.gives (h : Emits cx B O s s' v i) (hM : s'.mod.Grows w.mod) (hat : At w s f κ) (hop : i.op ≠ .call)
    (hx : Defines w.call w.mod (placed i s s' v) f (pure x)) : Gives w s s' f κ v x :=
  (h.defines hM hat hop hx).of_pure hat.bare

theorem Emits.stores (h : Emits cx B O s s' v i) (hM : s'.mod.Grows w.mod) (hat : At w s f κ) (hop : i.op = .storeSlot)
    (hargs : i.args = [a]) (hx : Has s f a x) (hpos : 0 ≤ i.slot.index) :
    ∃ f', At w s' f' κ ∧ Sets s s' f f' i.slot x := by
  obtain ⟨f1, hf1⟩ := exists_write? f i.slot x hpos
  have hd := (h.comes hM hat).does (by rw [hop]; simp)
  have hexec : exec w.call w.mod (placed i s s' v) f = pure f1 := by
    have hops : f.Operands (placed i s s' v) [x] := by
      unfold Operands
      rw [hargs]
      exact .cons hx.2 .nil
    rw [exec_storeSlot (i := placed i s s' v) _ _ _ hop, hops.arg (n := 0) rfl, pure_bind]
    change need (f.write? i.slot x) = _
    rw [hf1]
    rfl
  rw [hexec] at hd
  obtain ⟨f', hat', rfl⟩ := hd.of_pure hat.bare
  refine ⟨f', hat', fun {u y} hy => ?_, fun slot' => read?_write? hf1⟩
  obtain ⟨hj, hy⟩ := hy.mono h.grows
  exact ⟨hj, by rw [values_write? hf1, hy]⟩

end Emits

section Primitives

variable {v : ValueId} {ty : Ty}

theorem Working.loads (h : Working cx B O s) {slot : Slot} (hs : InFrame O.depth s slot) (ty : Ty) :
    Wp (cx.load slot ty) s fun v s' => Appends cx B O s s' ∧ s'.mod.Use s'.cursor.block v ty ∧ s'.cursor.pending = none ∧
      ∀ w f κ x, s'.mod.Grows w.mod → At w s f κ → f.read? slot = some x → Gives w s s' f κ v x := by
  refine (h.emits (.loading hs)).mono fun v s' ⟨he, hp⟩ => ?_
  refine ⟨he.toAppends, he.use, hp rfl, fun w f κ x hM hat hx => ?_⟩
  exact he.gives hM hat (by simp) (defines_loadSlot rfl hx)

theorem Working.stores (h : Working cx B O s) {slot : Slot} (hs : Storable O.depth s slot) (hv : s.mod.Use s.cursor.block v ty) :
    Wp (cx.store slot v) s fun _ s' => Appends cx B O s s' ∧ ∀ w f κ x, s'.mod.Grows w.mod → At w s f κ → Has s f v x →
      0 ≤ slot.index → ∃ f', At w s' f' κ ∧ Sets s s' f f' slot x :=
  (h.emits (.storing hs hv)).bind fun _ _ ⟨he, _⟩ =>
    ⟨he.toAppends, fun _ _ _ _ hM hat hx hpos => he.stores hM hat rfl rfl hx hpos⟩

theorem Working.zeros (h : Working cx B O s) (ty : Ty) :
    Wp (cx.zero ty) s fun v s' => Appends cx B O s s' ∧ s'.mod.Use s'.cursor.block v ty ∧
      ∀ w f κ, s'.mod.Grows w.mod → At w s f κ → Gives w s s' f κ v {} := by
  unfold zero
  split
  · rename_i hty
    subst hty
    refine (h.emits (.of_uses (by simp) (by simp))).mono fun v s' ⟨he, _⟩ => ⟨he.toAppends, he.use, ?_⟩
    exact fun w f κ hM hat => he.gives hM hat (by simp) (defines_constNull rfl)
  · refine (h.emits (.of_uses (by simp) (by simp))).mono fun v s' ⟨he, _⟩ => ⟨he.toAppends, he.use, ?_⟩
    exact fun w f κ hM hat => he.gives hM hat (by simp) (defines_const rfl)

theorem Working.constants (h : Working cx B O s) (n : Int64) :
    Wp (cx.constInt n) s fun v s' => Appends cx B O s s' ∧ s'.mod.Use s'.cursor.block v .i32 ∧
      ∀ w f κ, s'.mod.Grows w.mod → At w s f κ → Gives w s s' f κ v (.ofInt n.toInt32.toInt64) := by
  refine (h.emits (.of_uses (by simp) (by simp))).mono fun v s' ⟨he, _⟩ => ?_
  exact ⟨he.toAppends, he.use, fun w f κ hM hat => he.gives hM hat (by simp) (defines_const rfl)⟩

end Primitives

/-! ## Checks -/

section Checks

variable {v : ValueId} {ty : Ty} {x : Value}

theorem Has.operand {i : Inst} (h : Has s f v x) (hargs : i.args = [v]) : f.Operands i [x] := by
  unfold Operands
  rw [hargs]
  exact .cons h.2 .nil

/-- A reference that is not null passes its check, which may be left out. -/
theorem Working.passesNull (h : Working cx B O s) (hv : s.mod.Use s.cursor.block v ty) :
    Wp (cx.checkNull v) s fun _ s' => Appends cx B O s s' ∧ ∀ w f κ x, s'.mod.Grows w.mod → At w s f κ → Has s f v x →
      x.ref.isSome = true → ∃ f', At w s' f' κ ∧ Retains s s' f f' := by
  refine wp_bind.2 (wp_get.2 ?_)
  split
  · exact ⟨h.appends, fun w f κ x _ hat _ _ => ⟨f, hat, .of_grows (.refl _)⟩⟩
  unfold Context.check
  refine (h.emits (.unary rfl (by simp) hv)).bind fun u s' ⟨he, _⟩ => ⟨he.toAppends, fun w f κ x hM hat hx hr => ?_⟩
  have hpass : Machine.checkNull x = pure () := if_neg (by simpa [Option.isNone_iff_eq_none, Option.isSome_iff_ne_none] using hr)
  have hd := he.acts hM hat (by simp) (acts_checkNull rfl (hx.operand rfl))
  rw [hpass] at hd
  exact hd.of_pure hat.bare

theorem Has.constant {n : Int64} {j : Inst} (hx : Has s f v x) (hM : s.mod.Grows w.mod) (hat : At w s f κ)
    (hv : s.mod.Use s.cursor.block v ty) (hj : s.mod.inst? v = some j) (hop : j.op = .const) (hn : j.imm = n) : x.i = n := by
  obtain ⟨rfl, htold⟩ := hat.told hM hv.1 hj
  unfold Told at htold
  rw [hop] at htold
  obtain rfl := Option.mem_unique hx.2 htold
  exact hn

/-- A value whose integer part is a number of 32 bits. -/
def IsInt (x : Value) : Prop := x.int32.toInt64 = x.i

instance (x : Value) : Decidable (IsInt x) := inferInstanceAs (Decidable (_ = _))

/-- A length is checked, unless it is a constant that passes. -/
theorem Working.checksNonNeg (h : Working cx B O s) (hv : s.mod.Use s.cursor.block v ty) :
    Wp (cx.checkNonNeg v) s fun _ s' => Appends cx B O s s' ∧ ∀ w f κ x, s'.mod.Grows w.mod → At w s f κ → Has s f v x →
      IsInt x → Does w s.cursor.bci κ (Machine.checkNonNeg x) s' fun _ f' => Retains s s' f f' := by
  refine (wp_constant? hv).bind fun c s1 hs1 => ?_
  obtain ⟨rfl, hc⟩ := hs1
  dsimp only
  split
  · rename_i hknown
    obtain ⟨n, hn, hle⟩ := (Option.any_eq_true _ _).1 (Bool.and_eq_true_iff.1 hknown).2
    obtain ⟨j, hj, hop, himm⟩ := hc n hn
    refine ⟨h.appends, fun w f κ x hM hat hx hint => ?_⟩
    have hpos : 0 ≤ x.int32 := by
      have hle : (0 : Int64) ≤ x.i := hx.constant hM hat hv hj hop himm ▸ by simpa using hle
      rw [← hint, Int64.le_iff_toInt_le, Int32.toInt_toInt64] at hle
      exact Int32.le_iff_toInt_le.2 hle
    rw [Machine.checkNonNeg, if_neg (Int32.not_lt.2 hpos)]
    exact .pure hat (.of_grows (.refl _))
  · unfold Context.check
    refine (h.emits (.unary rfl (by simp) hv)).bind fun u s' ⟨he, _⟩ => ⟨he.toAppends, fun w f κ x hM hat hx _ => ?_⟩
    exact he.acts hM hat (by simp) (acts_checkNonNeg rfl (hx.operand rfl))

end Checks

/-! ## The operand stack -/

/-- A frame holds the given values on the operand stack, the top first. -/
def Holds (s : State) (f : Frame) (xs : List Value) : Prop :=
  List.Forall₂ (fun e x => Has s f e.id x) s.cursor.stack xs

theorem Retains.holds {xs : List Value} (h : Retains s s' f f') (hst : s'.cursor.stack = s.cursor.stack) (hx : Holds s f xs) :
    Holds s' f' xs := by
  unfold Holds
  rw [hst]
  exact hx.imp fun _ _ he => h.has he

theorem At.withStack (h : At w s f κ) (stack : List StackEntry) : At w (s.withStack stack) f κ := h

section Stack

variable {v : ValueId} {ty : Ty} {x : Value} {xs ys : List Value}

theorem Ready.popsAll (h : Ready cx B O s) (wanted : List Ty) :
    Wp (popAll wanted) s fun vs s' => Advances cx B O s s' ∧ ∃ (popped rest : List StackEntry),
      s.cursor.stack = popped.reverse ++ rest ∧ s' = s.withStack rest ∧ vs = popped.map (·.id) ∧ popped.map (·.ty) = wanted := by
  have hloop : Wp (wanted.reverse.mapM Context.popTy) s fun vs s' => Advances cx B O s s' ∧ ∃ (popped rest : List StackEntry),
      s.cursor.stack = popped ++ rest ∧ s' = s.withStack rest ∧ vs = popped.map (·.id) ∧
      popped.map (·.ty) ++ ([] : List Ty) = wanted.reverse := by
    refine wp_mapM (I := fun l vs s' => Advances cx B O s s' ∧ ∃ (popped rest : List StackEntry), s.cursor.stack = popped ++ rest ∧
      s' = s.withStack rest ∧ vs = popped.map (·.id) ∧ popped.map (·.ty) ++ l = wanted.reverse) ?_
      ⟨h.advances, [], _, rfl, rfl, rfl, rfl⟩
    rintro ty l vs s1 ⟨ha, popped, rest, hst, rfl, rfl, hty⟩
    refine (ha.ready.popTy ty).mono fun v s2 ⟨ha2, _, rest', hrest, hs2⟩ => ⟨ha.trans ha2, popped ++ [⟨v, ty⟩], rest', ?_, hs2, ?_, ?_⟩
    · rw [hst, append_assoc]
      exact congrArg (popped ++ ·) hrest
    · simp
    · rw [← hty]
      simp
  refine hloop.bind fun vs s1 ⟨ha, popped, rest, hst, hs1, hvs, hty⟩ => ⟨ha, popped.reverse, rest, ?_, hs1, ?_, ?_⟩
  · rw [reverse_reverse, hst]
  · rw [hvs, map_reverse]
  · rw [map_reverse, ← append_nil (List.map _ _), hty, reverse_reverse]

theorem Holds.split {popped rest : List StackEntry} (h : Holds s f (xs.reverse ++ ys)) (hst : s.cursor.stack = popped.reverse ++ rest)
    (hlen : xs.length = popped.length) :
    Forall₂ (fun e x => Has s f e.id x) popped xs ∧ Holds (s.withStack rest) f ys := by
  unfold Holds at h
  rw [hst] at h
  have hlen : xs.reverse.length = popped.reverse.length := by simp [hlen]
  have htop := forall₂_take_append _ _ _ h
  have hbelow := forall₂_drop_append _ _ _ h
  rw [hlen, take_left' rfl] at htop
  rw [hlen, drop_left' rfl] at hbelow
  exact ⟨forall₂_reverse_iff.1 htop, hbelow⟩

theorem Ready.pushes (h : Ready cx B O s) (hv : s.mod.Use s.cursor.block v ty) :
    Wp (Context.push v ty) s fun _ s' => Advances cx B O s s' ∧ s' = s.withStack (⟨v, ty⟩ :: s.cursor.stack) :=
  (h.push hv).and rfl

theorem Holds.push (h : Holds s f xs) (hx : Has s f v x) : Holds (s.withStack (⟨v, ty⟩ :: s.cursor.stack)) f (x :: xs) :=
  .cons hx h

/-! ## Stack slots -/

/-- A frame has the operand stack in its slots, the lowest value first. -/
def OnStack (xs : List Value) (f : Frame) : Prop :=
  ∀ (n : Nat) x, xs.reverse[n]? = some x → f.read? ⟨.stack, n⟩ = some x

/-- A step sets stack slots and keeps everything else. -/
structure Spills (s s' : State) (f f' : Frame) : Prop where
  has : ∀ {v x}, Has s f v x → Has s' f' v x
  slots : ∀ slot, slot.space ≠ .stack → f'.read? slot = f.read? slot

theorem Working.storesFrom (h : Working cx B O s) (l : List StackEntry) (k : Nat)
    (hl : ∀ e ∈ l, s.mod.Use s.cursor.block e.id e.ty) (hd : k + l.length ≤ max s.maxStack O.depth) :
    Wp ((l.zipIdx k).forM fun (e, i) => cx.store ⟨.stack, i⟩ e.id) s fun _ s' => Appends cx B O s s' ∧
      ∀ w f κ xs, s'.mod.Grows w.mod → At w s f κ → Forall₂ (fun e x => Has s f e.id x) l xs →
        ∃ f', At w s' f' κ ∧ Spills s s' f f' ∧ (∀ n : Nat, n < k → f'.read? ⟨.stack, n⟩ = f.read? ⟨.stack, n⟩) ∧
          ∀ (n : Nat) x, xs[n]? = some x → f'.read? ⟨.stack, (k + n : Nat)⟩ = some x := by
  induction l generalizing s k with
  | nil =>
    refine ⟨h.appends, fun w f κ xs _ hat hxs => ⟨f, hat, ⟨id, fun _ _ => rfl⟩, fun _ _ => rfl, fun n x hx => ?_⟩⟩
    cases hxs
    simp at hx
  | cons e l ih =>
    rw [zipIdx_cons]
    change Wp (cx.store ⟨.stack, k⟩ e.id >>= fun _ => (l.zipIdx (k + 1)).forM _) s _
    rw [length_cons] at hd
    refine (h.stores (.stack (by omega)) (hl e mem_cons_self)).bind fun _ s1 ⟨ha1, hd1⟩ => ?_
    have hmax := ha1.proceeds.evolves.maxStack
    have hl1 : ∀ x ∈ l, s1.mod.Use s1.cursor.block x.id x.ty := fun x hx => ha1.proceeds.use (hl x (mem_cons_of_mem _ hx))
    refine (ih ha1.working (k + 1) hl1 (by omega)).mono fun _ s2 ⟨ha2, hd2⟩ => ⟨ha1.trans ha2, fun w f κ xs hM hat hxs => ?_⟩
    obtain ⟨x, xs, hx, htail, rfl⟩ := forall₂_cons_left_iff.1 hxs
    obtain ⟨f1, hat1, hset⟩ := hd1 w f κ x (ha2.grows.trans hM) hat hx (Int.natCast_nonneg k)
    obtain ⟨f2, hat2, hsp, hlow, hhigh⟩ := hd2 w f1 κ xs hM hat1 (htail.imp fun _ _ he => hset.has he)
    refine ⟨f2, hat2, ⟨fun hv => hsp.has (hset.has hv), fun slot hs => ?_⟩, fun n hn => ?_, fun n y hy => ?_⟩
    · rw [hsp.slots slot hs, hset.read?, if_neg]
      rintro rfl
      exact hs rfl
    · rw [hlow n (by omega), hset.read?, if_neg]
      simp only [Slot.mk.injEq, true_and, Int.ofNat_inj]
      omega
    · cases n with
      | zero =>
        obtain rfl := Option.some.inj hy
        rw [hlow _ (by omega), hset.read?, Nat.add_zero, if_pos rfl]
      | succ n =>
        have := hhigh n y hy
        rwa [show k + 1 + n = k + (n + 1) by omega] at this

/-- **The stack goes to its slots.** -/
theorem Ready.spills (h : Ready cx B O s) :
    Wp cx.spill s fun _ s' => (Appends cx B O s s' ∧ s.cursor.stack.length ≤ s'.maxStack) ∧
      ∀ w f κ xs, s'.mod.Grows w.mod → At w s f κ → Holds s f xs →
        ∃ f', At w s' f' κ ∧ Spills s s' f f' ∧ OnStack xs f' := by
  refine wp_bind.2 (wp_get.2 ?_)
  -- the slots are counted when all of them are stored to
  refine (h.deep.storesFrom s.cursor.stack.reverse 0 (fun e he => h.stack e (mem_reverse.1 he))
    (by simp)).bind fun _ s1 ⟨ha, hd⟩ => ?_
  obtain ⟨ha2, hmax⟩ := ha.working.needStack s.cursor.stack.reverse.length
  replace hmax := length_reverse.ge.trans hmax
  refine ⟨⟨(ha.trans ha2).counted hmax, hmax⟩, fun w f κ xs hM hat hx => ?_⟩
  obtain ⟨f', hat', hsp, -, hhigh⟩ := hd w f κ xs.reverse hM hat (forall₂_reverse_iff.2 hx)
  refine ⟨f', hat', ⟨hsp.has, hsp.slots⟩, fun n x hx => ?_⟩
  have := hhigh n x hx
  rwa [Nat.zero_add] at this

theorem Ready.loadsFrom (h : Ready cx B O s) (l : List Ty) (k : Nat) (hd : k + l.length ≤ max s.maxStack O.depth) :
    Wp ((l.zipIdx k).forM fun (ty, i) => cx.emitPush { op := .loadSlot, ty := ty, slot := ⟨.stack, i⟩ }) s fun _ s' =>
      Advances cx B O s s' ∧ ∀ w f κ (xs ys : List Value), s'.mod.Grows w.mod → At w s f κ → Holds s f ys → xs.length = l.length →
        (∀ (n : Nat) x, xs[n]? = some x → f.read? ⟨.stack, (k + n : Nat)⟩ = some x) →
        ∃ f', At w s' f' κ ∧ Holds s' f' (xs.reverse ++ ys) ∧ Retains s s' f f' := by
  induction l generalizing s k with
  | nil =>
    refine ⟨h.advances, fun w f κ xs ys _ hat hy hlen _ => ⟨f, hat, ?_, .of_grows (.refl _)⟩⟩
    obtain rfl := length_eq_zero_iff.1 hlen
    exact hy
  | cons ty l ih =>
    rw [zipIdx_cons]
    change Wp (cx.emitPush { op := .loadSlot, ty := ty, slot := ⟨.stack, k⟩ } >>= fun _ => (l.zipIdx (k + 1)).forM _) s _
    rw [wp_bind]
    rw [length_cons] at hd
    refine (h.emits (.loading (.stack (by omega)))).bind fun v s1 ⟨he, _⟩ => ?_
    have hmax : s.maxStack ≤ s1.maxStack := he.proceeds.evolves.maxStack
    have h1 := h.advance he.toAppends
    refine (h1.ready.pushes he.use).mono fun _ s2 ⟨h2, hs2⟩ => ?_
    subst hs2
    refine (ih h2.ready (k + 1) (by dsimp only; omega)).mono fun _ s3 ⟨h3, hd3⟩ => ⟨(h1.trans h2).trans h3, fun w f κ xs ys hM hat hy hlen hslots => ?_⟩
    obtain ⟨x, xs, rfl⟩ := exists_cons_of_length_eq_add_one hlen
    have hM1 : s1.mod.Grows w.mod := h3.grows.trans hM
    obtain ⟨f1, hat1, hr1, hv1⟩ := he.gives hM1 hat (by simp) (defines_loadSlot rfl (hslots 0 x rfl))
    obtain ⟨f3, hat3, hx3, hr3⟩ := hd3 w f1 κ xs (x :: ys) hM (hat1.withStack _) ((hr1.holds he.stack hy).push hv1)
      (by simpa using hlen) fun n y hy => by
        rw [hr1.slots, show k + 1 + n = k + (n + 1) by omega]
        exact hslots (n + 1) y hy
    refine ⟨f3, hat3, ?_, hr1.trans ⟨hr3.has, hr3.slots⟩⟩
    rw [reverse_cons, append_assoc]
    exact hx3

/-- **The stack comes back from its slots.** -/
theorem Working.reloads (h : Working cx B O s) {shape : List Ty} (hd : shape.length ≤ max s.maxStack O.depth) :
    Wp (cx.reload shape) s fun _ s' => Advances cx B O s s' ∧ ∀ w f κ xs, s'.mod.Grows w.mod → At w s f κ →
      OnStack xs f → xs.length = shape.length → ∃ f', At w s' f' κ ∧ Holds s' f' xs ∧ Retains s s' f f' := by
  have h0 : Advances cx B O s (s.withStack []) := h.setStack (by simp)
  refine wp_bind.2 (wp_modify.2 ?_)
  refine (h0.ready.loadsFrom shape 0 (by simpa using hd)).mono fun _ s1 ⟨h1, hd⟩ => ⟨h0.trans h1, fun w f κ xs hM hat hst hlen => ?_⟩
  obtain ⟨f', hat', hx', hr'⟩ := hd w f κ xs.reverse [] hM (hat.withStack []) .nil (by simpa using hlen) fun n x hx => by
    rw [Nat.zero_add]
    exact hst n x hx
  rw [reverse_reverse, append_nil] at hx'
  exact ⟨f', hat', hx', hr'.has, hr'.slots⟩

end Stack

end Bytelift.Lift
