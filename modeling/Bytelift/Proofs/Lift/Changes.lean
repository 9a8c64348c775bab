import Bytelift.Proofs.Lift.Invariant
import Bytelift.Proofs.Lift.Outcome
import Mathlib.Logic.Relation
import Mathlib.Tactic.SplitIfs

/-!
# What a lifting does

A lifting changes its state in small steps, and it does so without looking at its records. `Change` lists the
steps: which instructions are emitted and what the blocks are called. `Twin` says of
two actions, of which the second runs under other limits and with other logs, that they take the same steps: if the
first ends well, so does the second, with the same result and the same state but for the records.

Results:
* `Twin.bind`, `Twin.get`: twins are built from twins;
* `twin_emit`, `twin_terminate`, …: the actions on the block being lifted have twins.
-/

namespace Bytelift.Lift

open Ir List

/-! ## Steps -/

/-- The texts of a method that stand in its module as symbols. -/
inductive Named (cx : Context) : Text → Prop
  | cls {ref : ClassRef} (h : .cls ref ∈ cx.method.pool.entries) : Named cx ref.name
  | layout {ref : ClassRef} {f : FieldInfo} (h : .cls ref ∈ cx.method.pool.entries) (hf : f ∈ ref.fields) :
    Named cx f.key
  | field {ref : FieldRef} (h : .field ref ∈ cx.method.pool.entries) : Named cx ref.key
  | method {ref : MethodRef} (h : .method ref ∈ cx.method.pool.entries) : Named cx ref.key
  | caught {e : ExceptionEntry} (h : e ∈ cx.table) : Named cx e.catchType
  | array {kind : Kind} : Named cx ("[" ++ kind.descriptor)
  | refArray {ref : ClassRef} (h : .cls ref ∈ cx.method.pool.entries) : Named cx ("[" ++ classDescriptor ref.name)
  | level {ref : ClassRef} (n : Nat) (h : .cls ref ∈ cx.method.pool.entries) : Named cx (ref.name.drop n)

/-- The instructions that a lifting emits: their symbols come from the method, and allocations and calls have their
sites. -/
structure Emitted (cx : Context) (i : Inst) : Prop where
  sym : i.op = .constString ∨ i.sym = [] ∨ Named cx i.sym
  alloc : i.op = .allocObject ∨ i.op = .allocArray → ∃ a, i.alloc = some a ∧ Named cx a.cls
  call : i.op = .call → ∃ c, i.call = some c ∧ (c.dispatch.isBound = false → i.args ≠ [])

/-- An operation that has no site: it neither allocates nor calls. -/
def isSiteless : Op → Bool
  | .allocObject | .allocArray | .call => false
  | _ => true

theorem Emitted.siteless {cx : Context} {i : Inst} (hop : isSiteless i.op) (h : i.sym = [] ∨ Named cx i.sym) :
    Emitted cx i where
  sym := .inr h
  alloc ha := by rcases ha with ha | ha <;> (rw [ha] at hop; cases hop)
  call hc := by
    rw [hc] at hop
    cases hop

/-- An instruction that is emitted with a slot that it owes to no region. -/
structure Direct (cx : Context) (i : Inst) : Prop where
  emitted : Emitted cx i
  slot : 0 ≤ i.slot.index

namespace Direct

variable {cx : Context} {i : Inst} {c : Prop} {e : Reason}

theorem plain (hop : isSiteless i.op) (hsym : i.sym = []) (hs : 0 ≤ i.slot.index) : Direct cx i :=
  ⟨.siteless hop (.inl hsym), hs⟩

theorem bare (hop : isSiteless i.op) (hsym : i.sym = []) (hs : i.slot.index = 0) : Direct cx i :=
  .plain hop hsym (Int.le_of_eq hs.symm)

theorem named (hop : isSiteless i.op) (h : Named cx i.sym) (hs : i.slot.index = 0) : Direct cx i :=
  ⟨.siteless hop (.inr h), Int.le_of_eq hs.symm⟩

end Direct

/-- The labels that a lifting asks for. -/
inductive Labelled (bci : Int) : BlockKind → Text → Prop
  | entry : Labelled bci .entry "entry"
  | code : Labelled bci .code (bciLabel bci [])
  | return : Labelled bci .return "method_return"
  | leave : Labelled bci .leave (bciLabel bci "_leave")
  | continue : Labelled bci .continue (bciLabel bci "_normal")
  | cleanup (n : Nat) : Labelled bci .dispatch (bciLabel bci ("_cleanup_" ++ Text.ofNat n))
  | catch (n : Nat) : Labelled bci .dispatch (bciLabel bci ("_catch_" ++ Text.ofNat n))
  | resume : Labelled bci .resume (bciLabel bci "_resume")
  | pad : Labelled bci .landingpad (bciLabel bci "_unwind_dest")
  | loop (n : Nat) (part : Text) (h : part = "_head" ∨ part = "_body" ∨ part = "_exit") :
    Labelled bci .loop (bciLabel bci ("_marr" ++ Text.ofNat n ++ part))

/-- The names of temporaries. -/
inductive Reserved : Text → Prop
  | selector (h : Int) : Reserved (selectorName h)
  | caught (c : Int) : Reserved (caughtName c)
  | result : Reserved Context.resultName
  | level (bci : Int) (n : Nat) (part : Text) (h : part = "_n" ∨ part = "_a" ∨ part = "_i") :
    Reserved (Context.levelTemp bci n part)

/-- A slot that may be used: its number is no negative one, or it is the selector of a region. -/
def State.HasSlot (s : State) (slot : Slot) : Prop := 0 ≤ slot.index ∨ ∃ r ∈ s.regions, r.selector = slot

/-- A step of a lifting. Sites are added to those of the state, unless they may be taken from it. -/
inductive Change (cx : Context) (takes : Prop) (s : State) : State → Prop
  | newBlock {label bci kind} (h : Labelled bci kind label) :
    Change cx takes s { s with builder := (s.builder.newBlock label bci kind).2 }
  | temp {name} (h : Reserved name) : Change cx takes s { s with builder := (s.builder.temp name).2 }
  | emit {b i} (h : Emitted cx i) (hs : s.HasSlot i.slot) : Change cx takes s { s with builder := (s.builder.emit b i).2 }
  | block {b} {f : Block → Block} (h : ∀ k : Block, (f k).label = k.label ∧ (f k).insts = k.insts ∧ (f k).kind = k.kind ∧ (f k).start = k.start) :
    Change cx takes s { s with builder := { s.builder with mod := s.builder.mod.modifyBlock b f } }
  | header {f : Module → Module}
      (h : ∀ m : Module, (f m).blocks = m.blocks ∧ (f m).insts = m.insts ∧ (f m).temps = m.temps ∧ (f m).method = m.method) :
    Change cx takes s { s with builder := { s.builder with mod := f s.builder.mod } }
  | cursor (c : Cursor) : Change cx takes s { s with cursor := c }
  | regions {rs : List Region} (h : ∀ slot, State.HasSlot { s with regions := rs } slot ↔ s.HasSlot slot) :
    Change cx takes s { s with regions := rs }
  | maxStack (n : Nat) : Change cx takes s { s with maxStack := n }
  | sites {l : List Site} (h : s.sites <+: l ∨ takes) : Change cx takes s { s with sites := l }
  | entries (l : List (Int × Entry)) : Change cx takes s { s with entries := l }
  | leaves (l : List ((List Int × Exit) × BlockId)) : Change cx takes s { s with leaves := l }
  | pads (l : List (Int × BlockId)) : Change cx takes s { s with pads := l }
  | returnBlock (b : BlockId) : Change cx takes s { s with returnBlock := some b }
  | records (l : List Record) : Change cx takes s { s with records := l }

/-- A number of steps. -/
abbrev Changes (cx : Context) (F : Prop) : State → State → Prop := Relation.ReflTransGen (Change cx F)

theorem Changes.hasSlot {cx : Context} {F : Prop} {s s' : State} {slot : Slot} (h : Changes cx F s s') (hs : s.HasSlot slot) :
    s'.HasSlot slot := by
  induction h with
  | refl => exact hs
  | tail _ hc ih =>
    cases hc with
    | regions h => exact (h slot).2 ih
    | _ => exact ih

variable {bci h : Int} {i : Inst} {slot : Slot} {b : BlockId} {t : Terminator}

/-! ## Runs that end well -/

theorem ok_of_pure {α : Type} {a b : α} {s s' : State} (h : (pure a : LiftM α).run s = (.ok b, s')) : b = a ∧ s' = s := by
  cases h
  exact ⟨rfl, rfl⟩

theorem ok_of_get {t s s' : State} (h : (get : LiftM State).run s = (.ok t, s')) : t = s ∧ s' = s := by
  cases h
  exact ⟨rfl, rfl⟩

theorem ok_of_require {α : Type} {x : Option α} {a : α} {s s' : State} (h : (require x).run s = (.ok a, s')) :
    x = some a ∧ s' = s := by
  cases x with
  | none => cases h
  | some b =>
    obtain ⟨rfl, rfl⟩ := ok_of_pure h
    exact ⟨rfl, rfl⟩

/-- What holds of every value that an action gives holds of all values that it gives in a row. -/
theorem forall_of_mapM {γ δ : Type} {f : γ → LiftM δ} {P : δ → Prop} {l : List γ} {ds : List δ} {s s' : State}
    (hf : ∀ c s d s', (f c).run s = (.ok d, s') → P d) (h : (l.mapM f).run s = (.ok ds, s')) : ∀ d ∈ ds, P d := by
  induction l generalizing s s' ds with
  | nil =>
    obtain ⟨rfl, -⟩ := ok_of_pure h
    simp
  | cons c l ih =>
    rw [mapM_cons] at h
    obtain ⟨d, s1, hd, h⟩ := ok_of_bind h
    obtain ⟨ds', s2, hds, h⟩ := ok_of_bind h
    obtain ⟨rfl, -⟩ := ok_of_pure h
    exact forall_mem_cons.2 ⟨hf c s d s1 hd, ih hds⟩

/-! ## Twins -/

/-- A context refuses nothing that another one takes. -/
structure Context.Admits (cx v : Context) : Prop where
  allow : ∀ op, cx.allow.all (·.contains op) = true → v.allow.all (·.contains op) = true
  nesting : cx.nestingLimit ≤ v.nestingLimit

theorem Context.Admits.refl (cx : Context) : cx.Admits cx := ⟨fun _ h => h, Nat.le_refl _⟩

/-- The code of one method with the limits and logs of another context. -/
def Context.vary (cx v : Context) : Context :=
  { cx with
    method := { v.method with
      isStatic := cx.method.isStatic, maxLocals := cx.method.maxLocals, exceptions := cx.method.exceptions
      pool := cx.method.pool }
    allow := v.allow, nestingLimit := v.nestingLimit, debugLogs := v.debugLogs }

/-- The state with other records. -/
abbrev State.record (s : State) (r : List Record) : State := { s with records := r }

/-- Two actions take the same steps from a state, the second under the limits of `v` and with other records. If the
first ends well, so does the second; if the limits are the same, the second fails if the first does. -/
def TwinAt (cx v : Context) (F : Prop) (s : State) {α : Type} (x y : LiftM α) : Prop :=
  ∀ r, ∃ r', match x.run s with
    | (.ok a, s') => Changes cx F s s' ∧ y.run (s.record r) = (.ok a, s'.record r')
    | (.error e, s') => v.Admits cx → y.run (s.record r) = (.error e, s'.record r')

/-- Two actions take the same steps from every state. -/
def Twin (cx v : Context) (F : Prop) {α : Type} (x y : LiftM α) : Prop := ∀ s, TwinAt cx v F s x y

/-- An action and the same action in the other context take the same steps. -/
abbrev Twins (cx v : Context) (F : Prop) {α : Type} (x : Context → LiftM α) : Prop := Twin cx v F (x cx) (x (cx.vary v))

variable {cx v : Context} {F : Prop} {α β : Type} {x y : LiftM α} {s s' : State}

theorem Twin.ok (h : Twin cx cx F x y) {a : α} (hx : x.run s = (.ok a, s')) : Changes cx F s s' := by
  obtain ⟨r', hr⟩ := h s []
  rw [hx] at hr
  exact hr.1

theorem Twin.pure (a : α) : Twin cx v F (pure a) (pure a) := fun _ r => ⟨r, .refl, rfl⟩

theorem Twin.throw (e : Bailout) : Twin cx v F (throw e : LiftM α) (throw e) := fun _ r => ⟨r, fun _ => rfl⟩

/-- Twins in a row are twins. What comes second starts where the first ends. -/
theorem TwinAt.bind {f g : α → LiftM β} (h : TwinAt cx v F s x y)
    (hf : ∀ a s1, x.run s = (.ok a, s1) → TwinAt cx v F s1 (f a) (g a)) : TwinAt cx v F s (x >>= f) (y >>= g) := by
  intro r
  obtain ⟨r1, h1⟩ := h r
  rw [run_bind, run_bind]
  rcases hx : x.run s with ⟨e | a, s1⟩
  all_goals rw [hx] at h1
  · exact ⟨r1, fun hv => by rw [h1 hv]⟩
  · obtain ⟨hc1, hy⟩ := h1
    obtain ⟨r2, h2⟩ := hf _ _ hx r1
    refine ⟨r2, ?_⟩
    rw [hy]
    dsimp only
    rcases hf2 : (f a).run s1 with ⟨e | b, s2⟩
    all_goals rw [hf2] at h2
    · exact h2
    · exact ⟨hc1.trans h2.1, h2.2⟩

/-- What comes second may rely on a value that the first gives. -/
theorem Twin.bind_of {f g : α → LiftM β} (h : Twin cx v F x y)
    (hf : ∀ a s s', x.run s = (.ok a, s') → Twin cx v F (f a) (g a)) : Twin cx v F (x >>= f) (y >>= g) :=
  fun s => (h s).bind fun a s1 hx => hf a s s1 hx s1

theorem Twin.bind {f g : α → LiftM β} (h : Twin cx v F x y) (hf : ∀ a, Twin cx v F (f a) (g a)) :
    Twin cx v F (x >>= f) (y >>= g) :=
  h.bind_of fun a _ _ _ => hf a

/-- The state may be read, apart from its records. -/
theorem Twin.get {f g : State → LiftM β} (hf : ∀ s r, Twin cx v F (f s) (g (s.record r))) :
    Twin cx v F (get >>= f) (get >>= g) := by
  intro s r
  obtain ⟨r', hr⟩ := hf s r s r
  exact ⟨r', hr⟩

theorem twin_modify {f g : State → State} (h : ∀ s, Change cx F s (f s))
    (hg : ∀ s r, g (s.record r) = (f s).record r) : Twin cx v F (modify f) (modify g) :=
  fun s r => ⟨r, .single (h s), congrArg (Prod.mk _) (hg s r)⟩

theorem Twin.ite [Decidable c] {x' y' : LiftM α} (h : Twin cx v F x y) (h' : Twin cx v F x' y') :
    Twin cx v F (if c then x else x') (if c then y else y') := by
  split
  · exact h
  · exact h'

theorem twin_forM {γ : Type} {f g : γ → LiftM Unit} (l : List γ) (h : ∀ c ∈ l, Twin cx v F (f c) (g c)) :
    Twin cx v F (l.forM f) (l.forM g) := by
  induction l with
  | nil => exact .pure ()
  | cons c l ih =>
    rw [forM_eq_forM, forM_cons, forM_cons]
    exact (h c mem_cons_self).bind fun _ => ih fun c hc => h c (mem_cons_of_mem _ hc)

theorem twin_mapM {γ δ : Type} {f g : γ → LiftM δ} (l : List γ) (h : ∀ c ∈ l, Twin cx v F (f c) (g c)) :
    Twin cx v F (l.mapM f) (l.mapM g) := by
  induction l with
  | nil => exact .pure []
  | cons c l ih =>
    rw [mapM_cons, mapM_cons]
    exact (h c mem_cons_self).bind fun d => (ih fun c hc => h c (mem_cons_of_mem _ hc)).bind fun ds => .pure _

/-! ## Refusals -/

theorem twin_failAt : Twin cx v F (failAt bci e : LiftM α) (failAt bci e) := .throw _

theorem twin_failHere : Twin cx v F (failHere e : LiftM α) (failHere e) :=
  .get fun _ _ => twin_failAt

/-- The second may refuse less; with the same limits it refuses the same. -/
theorem twin_refuseIf {c' : Prop} [Decidable c] [Decidable c'] {e' : Reason} (h : c' → c)
    (h' : v.Admits cx → (c → c') ∧ e' = e) : Twin cx v F (refuseIf c bci e) (refuseIf c' bci e') := by
  intro s r
  refine ⟨r, ?_⟩
  unfold refuseIf
  by_cases hc : c
  · rw [if_pos hc]
    exact fun hv => by rw [if_pos ((h' hv).1 hc), (h' hv).2]; rfl
  · rw [if_neg hc, if_neg (mt h hc)]
    exact ⟨.refl, rfl⟩

theorem twin_refuse [Decidable c] : Twins cx v F fun _ => refuseIf c bci e :=
  twin_refuseIf id fun _ => ⟨id, rfl⟩

theorem twin_refuseHere [Decidable c] : Twins cx v F fun _ => refuseHereIf c e :=
  .ite twin_failHere (.pure ())

theorem twin_require (o : Option α) : Twins cx v F fun _ => require o := by
  cases o with
  | none => exact twin_failAt
  | some a => exact .pure a

/-- An action that fails after a last record has a twin that does so. -/
theorem twin_rethrow {r r' : LiftM Unit} (h : Twin cx v F x y) (hr : Twin cx v F r r')
    (hok : ∀ s e s', r.run s ≠ (.error e, s')) :
    Twin cx v F (tryCatch x fun e => do r; throw e) (tryCatch y fun e => do r'; throw e) := by
  intro s q
  obtain ⟨q1, h1⟩ := h s q
  rw [run_tryCatch, run_tryCatch]
  rcases hx : x.run s with ⟨e | a, s1⟩
  all_goals rw [hx] at h1
  · obtain ⟨q2, h2⟩ := hr s1 q1
    rcases hrun : r.run s1 with ⟨e' | u, s2⟩
    · exact absurd hrun (hok _ _ _)
    rw [hrun] at h2
    refine ⟨q2, ?_⟩
    dsimp only
    rw [run_bind, hrun]
    intro hv
    rw [h1 hv]
    dsimp only
    rw [run_bind, h2.2]
    rfl
  · refine ⟨q1, h1.1, ?_⟩
    rw [h1.2]

/-! ## Building -/

theorem twin_newBlock {label : Text} {kind : BlockKind} (h : Labelled bci kind label) :
    Twins cx v F fun _ => newBlock label bci kind :=
  fun _ r => ⟨r, .single (.newBlock h), rfl⟩

theorem twin_temp {name : Text} (h : Reserved name) : Twins cx v F fun _ => temp name :=
  fun _ r => ⟨r, .single (.temp h), rfl⟩

theorem index_of_temp {name : Text} (h : (temp name).run s = (.ok slot, s')) : 0 ≤ slot.index := by
  obtain rfl : slot = (s.builder.temp name).1 := by
    cases h
    rfl
  unfold Builder.temp
  split <;> exact Int.natCast_nonneg _

theorem twinAt_emitIn (h : Emitted cx i) (hs : s.HasSlot i.slot) : TwinAt cx v F s (emitIn b i) (emitIn b i) := by
  intro r
  refine ⟨r, ?_⟩
  have hrun (s : State) : (emitIn b i).run s = match s.builder.mod.block? b with
      | some _ => (.ok (s.builder.emit b i).1, { s with builder := (s.builder.emit b i).2 })
      | none => (.error { bci := -1, reason := .internal }, s) := by
    unfold emitIn
    rw [run_bind]
    change (require (s.builder.mod.block? b) >>= _ : LiftM ValueId).run s = _
    cases s.builder.mod.block? b <;> rfl
  rw [hrun, hrun]
  cases s.builder.mod.block? b with
  | none => exact fun _ => rfl
  | some k => exact ⟨.single (.emit h hs), rfl⟩

theorem twin_emitIn (h : Direct cx i) : Twins cx v F fun _ => emitIn b i :=
  fun _ => twinAt_emitIn h.emitted (.inl h.slot)

theorem twin_modifyModule {f : Module → Module}
    (h : ∀ m : Module, (f m).blocks = m.blocks ∧ (f m).insts = m.insts ∧ (f m).temps = m.temps ∧ (f m).method = m.method) :
    Twins cx v F fun _ => modifyModule f :=
  twin_modify (fun _ => .header h) fun _ _ => rfl

theorem twin_changeBlock {f : Block → Block}
    (h : ∀ k : Block, (f k).label = k.label ∧ (f k).insts = k.insts ∧ (f k).kind = k.kind ∧ (f k).start = k.start) :
    Twins cx v F fun _ => changeBlock b f :=
  .get fun _ _ => (twin_require _).bind fun _ => twin_modify (fun _ => .block h) fun _ _ => rfl

theorem twin_setTerm : Twins cx v F fun _ => setTerm b t :=
  twin_changeBlock fun _ => ⟨rfl, rfl, rfl, rfl⟩

theorem twin_modifyCursor {f : Cursor → Cursor} : Twins cx v F fun _ => modifyCursor f :=
  twin_modify (fun _ => .cursor _) fun _ _ => rfl

theorem hasSlot_map {f : Region → Region} (hf : ∀ r, (f r).selector = r.selector) (slot : Slot) :
    State.HasSlot { s with regions := s.regions.map f } slot ↔ s.HasSlot slot := by
  simp [State.HasSlot, hf]

theorem twin_modifyRegion {f : Region → Region} (hf : ∀ r, (f r).selector = r.selector) :
    Twin cx v F (modifyRegion h f) (modifyRegion h f) := by
  refine twin_modify (fun s => .regions (hasSlot_map fun r => ?_)) fun _ _ => rfl
  split
  · exact hf r
  · rfl

theorem twin_needStack {n : Nat} : Twins cx v F fun _ => needStack n :=
  twin_modify (fun _ => .maxStack _) fun _ _ => rfl

theorem twin_addSite {owner : Owner} : Twins cx v F fun _ => addSite bci b owner :=
  twin_modify (fun _ => .sites (.inl (prefix_append _ _))) fun _ _ => rfl

theorem twin_regionOf : Twins cx v F fun _ => regionOf h := .get fun _ _ => twin_require _

theorem hasSlot_of_regionOf {r : Region} (hrun : (regionOf h).run s = (.ok r, s')) : s'.HasSlot r.selector := by
  obtain ⟨t, t', hget, hreq⟩ := ok_of_bind hrun
  obtain ⟨rfl, rfl⟩ := ok_of_get hget
  obtain ⟨hfind, rfl⟩ := ok_of_require hreq
  exact .inr ⟨r, mem_of_find?_eq_some hfind, rfl⟩

/-- A record more or less makes no difference. -/
theorem twin_trace {q : Record} : Twins cx v F (·.trace q) := by
  intro s r
  have hrun (cx : Context) (s : State) :
      (cx.trace q).run s = (.ok (), s.record (if cx.debugLogs then q :: s.records else s.records)) := by
    unfold Context.trace
    split <;> rfl
  rw [hrun]
  exact ⟨_, .single (.records _), hrun _ _⟩

theorem trace_ne_error {q : Record} (s : State) (e : Bailout) (s' : State) : (cx.trace q).run s ≠ (.error e, s') := by
  unfold Context.trace
  split <;> exact fun h => by cases h

theorem run_enqueue (cx : Context) (bci : Int) (shape : List Ty) (owner : Owner) (s : State) :
    (cx.enqueue bci shape owner).run s =
      if s.regions.any (·.handler = bci) = true ∧ owner.head? ≠ some bci then (.error ⟨[], bci, .entersCleanup⟩, s)
      else match s.entries.lookup bci with
        | some e =>
          if e.owner.head? ≠ owner.head? then (.error ⟨[], bci, .sharedBlock⟩, s)
          else if e.shape ≠ shape then (.error ⟨[], bci, .stackMismatch e.shape shape⟩, s)
          else (.ok (), s)
        | none =>
          if (cx.partition.blockAt? bci).isNone then (.error ⟨[], bci, .notBlock⟩, s)
          else (.ok (), { s with entries := s.entries ++ [(bci, ⟨shape, owner⟩)] }) := by
  have hget : (get : LiftM State).run s = (.ok s, s) := rfl
  unfold Context.enqueue refuseIf
  rw [run_bind, hget]
  dsimp only
  by_cases hregion : s.regions.any (·.handler = bci) = true ∧ owner.head? ≠ some bci
  · rw [if_pos hregion, if_pos hregion]
    rfl
  rw [if_neg hregion, if_neg hregion, pure_bind]
  cases s.entries.lookup bci with
  | none | some e =>
    dsimp only
    split_ifs <;> rfl

theorem twin_enqueue {shape : List Ty} {owner : Owner} : Twins cx v F (·.enqueue bci shape owner) := by
  intro s r
  refine ⟨r, ?_⟩
  rw [run_enqueue, run_enqueue]
  by_cases hregion : s.regions.any (·.handler = bci) = true ∧ owner.head? ≠ some bci
  · rw [if_pos hregion, if_pos hregion]
    exact fun _ => rfl
  rw [if_neg hregion, if_neg hregion]
  cases s.entries.lookup bci with
  | none =>
    by_cases hblock : (cx.partition.blockAt? bci).isNone = true
    · simp only [hblock, if_true]
      exact fun _ => if_pos hblock
    · simp only [hblock]
      exact ⟨.single (.entries _), if_neg hblock⟩
  | some e =>
    dsimp only
    split_ifs
    · exact fun _ => rfl
    · exact fun _ => rfl
    · exact ⟨.refl, rfl⟩

/-! ## The block being lifted -/

namespace Context

variable {w : ValueId} {ty : Ty}

theorem twin_closeFaulting {next : BlockId} : Twins cx v F fun _ => closeFaulting bci next :=
  .get fun _ _ => twin_setTerm.bind fun _ => twin_addSite.bind fun _ => twin_modifyCursor

theorem twin_flushPending : Twins cx v F fun _ => flushPending := by
  refine .get fun s _ => ?_
  dsimp only
  split
  · exact .pure ()
  · exact (twin_newBlock .continue).bind fun _ => twin_closeFaulting.bind fun _ => twin_modifyCursor

theorem twinAt_emit (h : Emitted cx i) (hs : s.HasSlot i.slot) : TwinAt cx v F s (cx.emit i) ((cx.vary v).emit i) := by
  refine (twin_flushPending s).bind fun _ s1 hflush => ?_
  have hc : Changes cx False s s1 := twin_flushPending.ok hflush
  intro r
  refine (twinAt_emitIn (i := { i with bci := s1.cursor.bci }) { h with } (hc.hasSlot hs)).bind (fun w s2 _ => ?_) r
  exact twin_modifyCursor.bind (fun _ => .pure w) s2

theorem twin_emit (h : Direct cx i) : Twins cx v F (·.emit i) :=
  fun _ => twinAt_emit h.emitted (.inl h.slot)

theorem twin_push : Twins cx v F fun _ => push w ty := twin_modifyCursor

theorem twin_emitPush (h : Direct cx i) : Twins cx v F (·.emitPush i) :=
  (twin_emit h).bind fun _ => twin_push

theorem twin_pop : Twins cx v F fun _ => pop := by
  refine .get fun s _ => ?_
  dsimp only
  split
  · exact twin_failHere
  · exact twin_modifyCursor.bind fun _ => .pure _

theorem twin_popTy : Twins cx v F fun _ => popTy ty :=
  twin_pop.bind fun _ => twin_refuseHere.bind fun _ => .pure _

theorem twin_popAll {tys : List Ty} : Twins cx v F fun _ => popAll tys :=
  (twin_mapM _ fun _ _ => twin_popTy).bind fun _ => .pure _

theorem twin_stackShape : Twins cx v F fun _ => stackShape :=
  .get fun _ _ => .pure _

theorem twin_close : Twins cx v F (·.close t) :=
  .get fun _ _ => twin_setTerm.bind fun _ => .ite twin_addSite (.pure ())

theorem twin_terminate : Twins cx v F (·.terminate t) := by
  refine twin_modifyCursor.bind fun _ => .get fun s _ => ?_
  dsimp only
  split
  · exact twin_closeFaulting
  · exact twin_flushPending.bind fun _ => twin_close

theorem twin_store (hs : 0 ≤ slot.index) : Twins cx v F (·.store slot w) :=
  (twin_emit (.plain rfl rfl hs)).bind fun _ => .pure ()

theorem twinAt_load (hs : s.HasSlot slot) : TwinAt cx v F s (cx.load slot ty) ((cx.vary v).load slot ty) :=
  twinAt_emit (.siteless rfl (.inl rfl)) hs

theorem twin_load (hs : 0 ≤ slot.index) : Twins cx v F (·.load slot ty) :=
  fun _ => twinAt_load (.inl hs)

theorem twin_spill : Twins cx v F (·.spill) :=
  .get fun _ _ => (twin_forM _ fun _ _ => twin_store (Int.natCast_nonneg _)).bind fun _ => twin_needStack

theorem twin_reload {shape : List Ty} : Twins cx v F (·.reload shape) :=
  twin_modifyCursor.bind fun _ => twin_forM _ fun _ _ =>
    twin_emitPush (.plain rfl rfl (Int.natCast_nonneg _))

theorem twin_zero : Twins cx v F (·.zero ty) :=
  .ite (twin_emit (.bare rfl rfl rfl)) (twin_emit (.bare rfl rfl rfl))

theorem twin_constInt {n : Int64} : Twins cx v F (·.constInt n) :=
  twin_emit (.bare rfl rfl rfl)

theorem twin_constant? : Twins cx v F fun _ => constant? w :=
  .get fun _ _ => (twin_require _).bind fun _ => .pure _

theorem twin_markNonNull : Twins cx v F fun _ => markNonNull w := twin_modifyCursor

theorem twin_check {op : Op} {args : List ValueId} (hop : isSiteless op) : Twins cx v F (·.check op args) :=
  (twin_emit (.bare hop rfl rfl)).bind fun _ => .pure ()

theorem twin_checkNull : Twins cx v F (·.checkNull w) :=
  .get fun _ _ => .ite (.pure ()) (twin_check rfl)

theorem twin_checkDivZero : Twins cx v F (·.checkDivZero w) :=
  twin_constant?.bind fun _ => .ite (.pure ()) (twin_check rfl)

theorem twin_checkNonNeg : Twins cx v F (·.checkNonNeg w) :=
  twin_constant?.bind fun _ => .ite (.pure ()) (twin_check rfl)

end Context

end Bytelift.Lift
