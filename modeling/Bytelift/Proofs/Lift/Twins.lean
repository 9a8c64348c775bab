import Bytelift.Proofs.Lift.Changes
import Bytelift.Proofs.Lift.Landing

/-!
# Lifting under other limits

The lifting of a method takes the same steps whatever is logged, and it takes the same steps under wider limits if
it ends well. The proofs follow the functions that lift instructions, build landingpads and leave regions.

Results:
* `twin_build`: **a method is lifted in the same way.**
-/

namespace Bytelift.Lift

open Ir List ConstantPool

variable {cx v : Context} {F : Prop} {h bci n : Int} {next b : BlockId} {owner : Owner} {w : ValueId}
  {caught : Slot} {i : Instruction} {s s' : State} {desc : Text} {level : Context.Level} {d : Dispatch} {lane : Lane}
  {p : ConstantPool} {ref : MethodRef}

namespace Context

/-! ## Cleanup regions -/

theorem twin_addExit : Twins cx v F fun _ => addExit h next := by
  refine twin_regionOf.bind fun r => ?_
  split
  · exact .pure _
  · exact .bind (twin_modifyRegion fun _ => rfl) fun _ => .pure _

theorem twin_enter : Twins cx v F (·.enter h owner) :=
  twin_regionOf.bind fun _ => .bind (twin_modifyRegion fun _ => rfl) fun _ => twin_enqueue

theorem twin_routeThrough : Twins cx v F (·.routeThrough b bci h next owner) := by
  refine twin_addExit.bind fun _ s => (twin_regionOf s).bind fun r s1 hr => ?_
  refine TwinAt.bind (twin_emitIn (.bare rfl rfl rfl) s1) fun _ s2 hkey => ?_
  -- the region keeps its selector while the key is loaded
  have hc : Changes cx False s1 s2 := (twin_emitIn (.bare rfl rfl rfl)).ok hkey
  refine (twinAt_emitIn (.siteless rfl (.inl rfl)) (hc.hasSlot (hasSlot_of_regionOf hr))).bind fun _ s3 _ => ?_
  exact (twin_setTerm.bind fun _ => twin_enter) s3

theorem twin_fillReturn {slot : Slot} (hs : 0 ≤ slot.index) : Twins cx v F (·.fillReturn b slot) :=
  .ite twin_setTerm ((twin_emitIn (.plain rfl rfl hs)).bind fun _ => twin_setTerm)

theorem twin_sharedReturn : Twins cx v F (·.sharedReturn) := by
  refine .get fun s _ => ?_
  dsimp only
  split
  · exact .pure _
  · refine (twin_temp .result).bind_of fun _ _ _ hslot => (twin_newBlock .return).bind fun _ => ?_
    refine (twin_modify (fun _ => .returnBlock _) fun _ _ => rfl).bind fun _ => ?_
    exact (twin_fillReturn (index_of_temp hslot)).bind fun _ => .pure _

theorem twin_leaveThrough {source : Int} {exit : Exit} (hs : List Int) :
    Twins cx v F (·.leaveThrough source exit owner hs) := by
  induction hs with
  | nil =>
    cases exit with
    | ret => exact twin_sharedReturn
    | jump t => exact twin_enqueue.bind fun _ => .pure _
  | cons h rest ih =>
    refine .get fun s _ => ?_
    dsimp only
    split
    · exact .pure _
    · refine (twin_newBlock .leave).bind fun _ => ?_
      refine (twin_modify (fun _ => .leaves _) fun _ _ => rfl).bind fun _ => ih.bind fun _ => ?_
      exact twin_routeThrough.bind fun _ => .pure _

theorem twin_refuseNested (hlimit : cx.nestingLimit ≤ v.nestingLimit) {n : Nat} {e : Nat → Reason} :
    Twins cx v F fun cx => refuseIf (cx.nestingLimit < n) bci (e cx.nestingLimit) := by
  refine twin_refuseIf (Nat.lt_of_le_of_lt hlimit) fun hv => ?_
  have heq : (cx.vary v).nestingLimit = cx.nestingLimit := Nat.le_antisymm hv.nesting hlimit
  exact ⟨fun h => heq ▸ h, by rw [heq]⟩

theorem twin_leave {source : Int} {regions : List Region} {exit : Exit} (hlimit : cx.nestingLimit ≤ v.nestingLimit) :
    Twins cx v F (·.leave source regions exit owner) :=
  (twin_refuseNested hlimit).bind fun _ => twin_leaveThrough _

theorem twin_edge {target : Int} (hlimit : cx.nestingLimit ≤ v.nestingLimit) : Twins cx v F (·.edge target) := by
  refine .get fun s _ => ?_
  dsimp only
  split
  · exact twin_stackShape.bind fun _ => twin_enqueue.bind fun _ => .pure _
  · exact twin_refuseHere.bind fun _ => twin_leave hlimit

theorem twin_saveResult : Twins cx v F (·.saveResult w) :=
  .ite (.pure ()) ((twin_temp .result).bind_of fun _ _ _ hslot => twin_store (index_of_temp hslot))

theorem twin_exitMethod (hlimit : cx.nestingLimit ≤ v.nestingLimit) : Twins cx v F (·.exitMethod w) := by
  refine .get fun s _ => ?_
  dsimp only
  split
  · exact twin_terminate
  · exact twin_saveResult.bind fun _ => (twin_leave hlimit).bind fun _ => twin_terminate

theorem twin_endCleanup : Twins cx v F (·.endCleanup) := by
  refine .get fun s _ => ?_
  dsimp only
  split
  · exact twin_failHere
  · intro s
    refine (twin_regionOf s).bind fun r s1 hr => (twinAt_load (hasSlot_of_regionOf hr)).bind fun _ s2 _ => ?_
    refine twin_modifyCursor.bind (fun _ => ?_) s2
    exact twin_terminate.bind fun _ => .get fun _ _ => twin_modifyRegion fun _ => rfl

/-! ## Landingpads -/

theorem twin_padSteps (rows : List ExceptionEntry) (steps : List PadStep) : Twins cx v F fun _ => padSteps bci rows steps := by
  induction rows generalizing steps with
  | nil => exact .pure _
  | cons e rows ih =>
    refine .ite (ih steps) ?_
    refine Twin.bind ?_ fun b => .ite (.pure _) (ih _)
    cases e.isCleanup with
    | true => exact twin_newBlock (.cleanup _)
    | false => exact twin_newBlock (.catch _)

theorem twin_padStep {step : PadStep}
    (hrow : step.row ∈ cx.table) (hs : 0 ≤ caught.index) :
    Twins cx v F (·.padStep bci caught owner step next) := by
  refine .ite (twin_routeThrough.bind fun _ => .pure _) (twin_enqueue.bind fun _ => ?_)
  refine (twin_emitIn (.plain rfl rfl hs)).bind fun _ => ?_
  refine .bind (twin_emitIn (.bare rfl rfl rfl)) fun _ => ?_
  refine .ite (twin_setTerm.bind fun _ => .pure _) ?_
  exact (twin_emitIn (.named rfl (.caught hrow) rfl)).bind fun _ => twin_setTerm.bind fun _ => .pure _

theorem twin_fillSteps {tail : BlockId} (steps : List PadStep)
    (hrows : ∀ st ∈ steps, st.row ∈ cx.table) (hs : 0 ≤ caught.index) :
    Twins cx v F (·.fillSteps bci caught owner tail steps) := by
  induction steps with
  | nil => exact .pure _
  | cons step rest ih =>
    refine (twin_padStep (hrows step mem_cons_self) hs).bind fun _ => ?_
    exact (ih fun st hst => hrows st (mem_cons_of_mem _ hst)).bind fun _ => .pure _

theorem twin_resumeBlock (hs : 0 ≤ caught.index) : Twins cx v F fun _ => resumeBlock bci caught := by
  refine (twin_newBlock .resume).bind fun _ => ?_
  exact (twin_emitIn (.plain rfl rfl hs)).bind fun _ => twin_setTerm.bind fun _ => .pure _

theorem twin_padTail {all : Bool} (hs : 0 ≤ caught.index) : Twins cx v F fun _ => padTail bci caught all :=
  .ite (.pure _) (twin_resumeBlock hs)

theorem twin_buildPad (hlimit : cx.nestingLimit ≤ v.nestingLimit) : Twins cx v F (·.buildPad bci owner) := by
  refine (twin_newBlock .pad).bind fun pad => (twin_temp (.caught bci)).bind_of fun caught _ _ hcaught => ?_
  have hs := index_of_temp hcaught
  refine .bind (twin_emitIn (.bare rfl rfl rfl)) fun _ => ?_
  refine .bind (twin_emitIn (.bare rfl rfl rfl)) fun _ => ?_
  refine (twin_emitIn (.plain rfl rfl hs)).bind fun _ => ?_
  refine (twin_padSteps (cx.table.covering bci) []).bind_of fun p s s' hp => ?_
  obtain ⟨steps, all⟩ := p
  have hrows : ∀ st ∈ steps, st.row ∈ cx.table := by
    intro st hst
    obtain ⟨new, all', s'', hrun, hnew⟩ := run_padSteps bci (cx.table.covering bci) [] s
    obtain ⟨⟨rfl, -⟩, -⟩ := by simpa using hp.symm.trans hrun
    exact (mem_filter.1 (candidates_subset (hnew ▸ mem_map_of_mem hst))).1
  refine (twin_refuseNested hlimit).bind fun _ => ?_
  refine (twin_padTail hs).bind fun _ => twin_setTerm.bind fun _ => ?_
  refine (twin_rethrow (twin_fillSteps _ hrows hs) twin_trace trace_ne_error).bind fun _ => twin_needStack.bind fun _ => ?_
  exact .bind (twin_changeBlock fun _ => ⟨rfl, rfl, rfl, rfl⟩) fun _ => twin_trace.bind fun _ => .pure _

theorem twin_padOf {site : Site} (hlimit : cx.nestingLimit ≤ v.nestingLimit) : Twins cx v F (·.padOf site) := by
  refine .get fun s _ => ?_
  dsimp only
  split
  · exact .pure _
  · exact (twin_buildPad hlimit).bind fun _ => (twin_modify (fun _ => .pads _) fun _ _ => rfl).bind fun _ => .pure _

theorem twin_attachPad {site : Site} (hlimit : cx.nestingLimit ≤ v.nestingLimit) : Twins cx v F (·.attachPad site) :=
  (twin_padOf hlimit).bind fun _ => twin_changeBlock fun _ => ⟨rfl, rfl, rfl, rfl⟩

/-! ## Allocations -/

theorem twin_poolClass {use : Text} : Twins cx v F (·.poolClass use i) := by
  unfold poolClass
  dsimp only [Twins, vary]
  split
  · exact .pure _
  · exact twin_failAt

theorem mem_of_entry {c : Constant} (h : p.entry n = .ok c) : c ∈ p.entries := by
  unfold entry at h
  split at h
  · cases h
  split at h
  · cases h
  · cases h
  · obtain rfl := Except.ok.inj h
    exact Array.mem_of_getElem? ‹_›

theorem mem_of_getClass {ref : ClassRef} (h : p.getClass n = .ok ref) : .cls ref ∈ p.entries := by
  unfold getClass at h
  split at h
  · cases h
  · obtain rfl := Except.ok.inj h
    exact mem_of_entry ‹_›
  · cases h

theorem mem_of_getMethod (h : p.getMethod n = .ok ref) :
    .method ref ∈ p.entries := by
  unfold getMethod at h
  split at h
  · cases h
  · obtain rfl := Except.ok.inj h
    exact mem_of_entry ‹_›
  · cases h

theorem mem_of_getField {ref : FieldRef} (h : p.getField n = .ok ref) :
    .field ref ∈ p.entries := by
  unfold getField at h
  split at h
  · cases h
  · obtain rfl := Except.ok.inj h
    exact mem_of_entry ‹_›
  · cases h

theorem mem_of_poolClass {use : Text} {ref : ClassRef}
    (h : (cx.poolClass use i).run s = (.ok ref, s')) : .cls ref ∈ cx.method.pool.entries := by
  unfold poolClass at h
  split at h
  · obtain ⟨rfl, -⟩ := ok_of_pure h
    exact mem_of_getClass ‹_›
  · cases h

theorem twin_zeroField {obj : ValueId} {f : FieldInfo} (hf : Named cx f.key) : Twins cx v F (·.zeroField bci obj f) := by
  unfold zeroField
  split
  · exact twin_failAt
  · exact twin_zero.bind fun _ => (twin_emit (.named rfl hf rfl)).bind fun _ => .pure ()

theorem twin_liftNew : Twins cx v F (·.liftNew i) := by
  refine twin_poolClass.bind_of fun ref _ _ href => twin_refuse.bind fun _ => ?_
  have hmem := mem_of_poolClass href
  have hi : Emitted cx
      { op := .allocObject, ty := .ref, sym := ref.name, alloc := some { kind := .object, cls := ref.name } } :=
    ⟨.inr (.inr (.cls hmem)), fun _ => ⟨_, rfl, .cls hmem⟩, fun h => by cases h⟩
  refine (twin_emit ⟨hi, Int.le_refl 0⟩).bind fun _ => twin_markNonNull.bind fun _ => ?_
  exact (twin_forM _ fun f hf => twin_zeroField (.layout hmem hf)).bind fun _ => twin_push

theorem twin_elementType : Twins cx v F fun _ => elementType desc := by
  unfold elementType
  split
  · exact twin_failHere
  · split
    · exact twin_failHere
    · exact twin_failHere
    · exact .pure _

theorem twin_allocArray {n : ValueId} (hd : Named cx desc) : Twins cx v F (·.allocArray desc n) := by
  refine twin_elementType.bind fun elem => ?_
  have hi : Emitted cx
      { op := .allocArray, ty := .ref, sym := desc, args := [n], alloc := some (arraySite desc elem n) } := by
    refine ⟨.inr (.inr hd), fun _ => ⟨_, rfl, ?_⟩, fun h => by cases h⟩
    unfold arraySite
    split <;> exact hd
  refine (twin_emit ⟨hi, Int.le_refl 0⟩).bind fun _ => twin_markNonNull.bind fun _ => twin_zero.bind fun _ => ?_
  exact .bind (twin_emit (.bare rfl rfl rfl)) fun _ => .pure _

theorem twin_liftArray (hd : Named cx desc) : Twins cx v F (·.liftArray desc) :=
  twin_popTy.bind fun _ => twin_checkNonNeg.bind fun _ => (twin_allocArray hd).bind fun _ => twin_push

theorem twin_liftNewArray : Twins cx v F (·.liftNewArray i) := by
  unfold liftNewArray
  split
  · exact twin_failAt
  · exact twin_liftArray .array

theorem twin_liftRefArray : Twins cx v F (·.liftRefArray i) :=
  twin_poolClass.bind_of fun _ _ _ href => twin_liftArray (.refArray (mem_of_poolClass href))

theorem twin_jumpTo : Twins cx v F fun _ => jumpTo b :=
  twin_flushPending.bind fun _ => .get fun _ _ => twin_setTerm.bind fun _ => twin_modifyCursor

/-- A level has the name of its class from the method, and its temporaries. -/
structure LevelOk (cx : Context) (l : Level) : Prop where
  desc : Named cx l.desc
  length : 0 ≤ l.length.index
  array : 0 ≤ l.array.index
  index : 0 ≤ l.index.index

theorem twin_allocLevel (hl : LevelOk cx level) : Twins cx v F (·.allocLevel level) :=
  (twin_load hl.length).bind fun _ => (twin_allocArray hl.desc).bind fun _ => twin_store hl.array

theorem twin_startLoop {head : BlockId} (hl : LevelOk cx level) : Twins cx v F (·.startLoop level head) :=
  twin_constInt.bind fun _ => (twin_store hl.index).bind fun _ => twin_jumpTo

theorem twin_testLoop {body exit : BlockId} (hl : LevelOk cx level) : Twins cx v F (·.testLoop level body exit) := by
  refine (twin_load hl.index).bind fun _ => (twin_load hl.length).bind fun _ => ?_
  refine .bind (twin_emit (.bare rfl rfl rfl)) fun _ => ?_
  exact .get fun _ _ => twin_setTerm.bind fun _ => twin_modifyCursor

theorem twin_closeLoop {inner : Level} {head exit : BlockId} (hl : LevelOk cx level) (hi : LevelOk cx inner) :
    Twins cx v F (·.closeLoop level inner head exit) := by
  refine (twin_load hl.array).bind fun _ => (twin_load hl.index).bind fun _ => (twin_load hi.array).bind fun _ => ?_
  refine .bind (twin_emit (.bare rfl rfl rfl)) fun _ => twin_constInt.bind fun _ => ?_
  refine .bind (twin_emit (.bare rfl rfl rfl)) fun _ => (twin_store hl.index).bind fun _ => ?_
  exact twin_jumpTo.bind fun _ => twin_modifyCursor

theorem twin_newLoopBlock {part : Text} (h : part = "_head" ∨ part = "_body" ∨ part = "_exit") :
    Twins cx v F fun _ => newBlock (level.label bci part) bci .loop :=
  twin_newBlock (.loop _ _ h)

theorem twin_buildLevels (levels : List Level) (hl : ∀ l ∈ levels, LevelOk cx l) : Twins cx v F (·.buildLevels bci levels) := by
  match levels with
  | [] => exact .pure ()
  | [level] =>
    exact twin_allocLevel (hl level mem_cons_self)
  | level :: inner :: rest =>
    obtain ⟨hlevel, hrest⟩ := forall_mem_cons.1 hl
    refine (twin_allocLevel hlevel).bind fun _ => (twin_newLoopBlock (.inl rfl)).bind fun _ => ?_
    refine (twin_newLoopBlock (.inr (.inl rfl))).bind fun _ => (twin_newLoopBlock (.inr (.inr rfl))).bind fun _ => ?_
    refine (twin_startLoop hlevel).bind fun _ => (twin_testLoop hlevel).bind fun _ => ?_
    exact (twin_buildLevels (inner :: rest) hrest).bind fun _ => twin_closeLoop hlevel (hrest inner mem_cons_self)

theorem twin_newLevel {n : Nat} : Twins cx v F (·.newLevel bci desc n w) := by
  refine (twin_temp (.level _ _ _ (.inl rfl))).bind_of fun _ _ _ hlength => ?_
  refine (twin_temp (.level _ _ _ (.inr (.inl rfl)))).bind fun _ => (twin_temp (.level _ _ _ (.inr (.inr rfl)))).bind fun _ => ?_
  exact (twin_store (index_of_temp hlength)).bind fun _ => .pure _

theorem ok_of_newLevel {n : Nat} {l : Level}
    (hd : Named cx (desc.drop n)) (h : (cx.newLevel bci desc n w).run s = (.ok l, s')) : LevelOk cx l := by
  obtain ⟨_, _, hlength, h⟩ := ok_of_bind h
  obtain ⟨_, _, harray, h⟩ := ok_of_bind h
  obtain ⟨_, _, hindex, h⟩ := ok_of_bind h
  obtain ⟨_, _, -, h⟩ := ok_of_bind h
  obtain ⟨rfl, -⟩ := ok_of_pure h
  exact ⟨hd, index_of_temp hlength, index_of_temp harray, index_of_temp hindex⟩

theorem twin_allocLevels {lengths : List ValueId} (hd : ∀ n, Named cx (desc.drop n)) :
    Twins cx v F (·.allocLevels bci desc lengths) := by
  refine Twin.bind_of (twin_mapM _ fun _ _ => twin_newLevel) fun levels s s' hlevels => ?_
  have hok : ∀ l ∈ levels, LevelOk cx l := forall_of_mapM (fun c s l s' hl => ok_of_newLevel (hd _) hl) hlevels
  refine twin_stackShape.bind fun _ => twin_spill.bind fun _ => (twin_buildLevels levels hok).bind fun _ => ?_
  refine (twin_require _).bind_of fun outermost s s' hreq => ?_
  have hmem : outermost ∈ levels := mem_of_head? (ok_of_require hreq).1
  exact (twin_load (hok _ hmem).array).bind fun _ => twin_reload.bind fun _ => twin_push

theorem twin_liftMultiArray : Twins cx v F (·.liftMultiArray i) := by
  refine twin_poolClass.bind_of fun ref _ _ href => twin_refuse.bind fun _ => twin_popAll.bind fun lengths => ?_
  have hmem := mem_of_poolClass href
  refine (twin_forM _ fun _ _ => twin_checkNonNeg).bind fun _ => ?_
  split
  · exact (twin_allocArray (.cls hmem)).bind fun _ => twin_push
  · exact twin_allocLevels fun n => .level n hmem

/-! ## Calls -/

theorem twin_lookup (href : Named cx ref.key) : Twins cx v F (·.lookup d ref w) := by
  refine .ite (.pure _) (.bind (twin_emit (.bare rfl rfl rfl)) fun _ => ?_)
  refine (twin_emit (.named ?_ href rfl)).bind fun _ => .pure _
  split <;> rfl

theorem twin_receiver (href : Named cx ref.key) : Twins cx v F (·.receiver d ref) := by
  refine .ite (.pure _) ?_
  exact twin_popTy.bind fun _ => twin_checkNull.bind fun _ => (twin_lookup href).bind fun _ => .pure _

theorem twin_calleeType : Twins cx v F fun _ => calleeType i ref := by
  unfold calleeType
  split
  · exact .pure _
  · exact twin_failAt

/-- A call that is not bound has its callee among its operands. -/
theorem slot_of_receiver {p : List ValueId × List ValueId}
    (hd : d.isBound = false) (h : (cx.receiver d ref).run s = (.ok p, s')) : p.2 ≠ [] := by
  have hstatic : d ≠ .static := fun h => by simp [h, Dispatch.isBound] at hd
  unfold receiver at h
  rw [if_neg hstatic] at h
  obtain ⟨_, _, -, h⟩ := ok_of_bind h
  obtain ⟨_, _, -, h⟩ := ok_of_bind h
  obtain ⟨slot, _, hslot, h⟩ := ok_of_bind h
  obtain ⟨rfl, -⟩ := ok_of_pure h
  unfold lookup at hslot
  rw [if_neg (by simp [hd])] at hslot
  obtain ⟨_, _, -, hslot⟩ := ok_of_bind hslot
  obtain ⟨_, _, -, hslot⟩ := ok_of_bind hslot
  obtain ⟨rfl, -⟩ := ok_of_pure hslot
  simp

theorem twin_liftCall (href : Named cx ref.key) : Twins cx v F (·.liftCall i d ref) := by
  refine twin_calleeType.bind fun mt => twin_refuse.bind fun _ => twin_popAll.bind fun args => ?_
  refine (twin_receiver href).bind_of fun p s s' hp => ?_
  obtain ⟨receiver, slot⟩ := p
  refine (twin_emit ⟨⟨.inr (.inr href), fun h => by simp at h, fun _ => ⟨_, rfl, fun hd => ?_⟩⟩, Int.le_refl 0⟩).bind fun _ =>
    .ite twin_push (.pure ())
  simp [slot_of_receiver hd hp]

theorem twin_liftInvoke {op : InvokeOp} : Twins cx v F (·.liftInvoke i op) := by
  unfold liftInvoke
  split
  · exact twin_failAt
  dsimp only [Twins, vary]
  split
  · exact twin_failAt
  · rename_i ref href
    exact twin_liftCall (.method (mem_of_getMethod href))

/-! ## Instructions -/

theorem twin_pushInt {n : Int64} : Twins cx v F (·.pushInt n) :=
  twin_constInt.bind fun _ => twin_push

theorem twin_liftLoad : Twins cx v F (·.liftLoad i lane) :=
  twin_emitPush (.plain rfl rfl (Int.natCast_nonneg _))

theorem twin_liftStore : Twins cx v F (·.liftStore i lane) :=
  twin_popTy.bind fun _ => twin_store (Int.natCast_nonneg _)

theorem twin_liftIncrement : Twins cx v F (·.liftIncrement i) := by
  refine (twin_load (Int.natCast_nonneg _)).bind fun _ => twin_constInt.bind fun _ => ?_
  exact .bind (twin_emit (.bare rfl rfl rfl)) fun _ => twin_store (Int.natCast_nonneg _)

theorem twin_liftConstant : Twins cx v F (·.liftConstant i) := by
  unfold liftConstant
  dsimp only [Twins, vary]
  split
  · exact twin_failAt
  split
  · exact twin_pushInt
  · exact twin_emitPush (.bare rfl rfl rfl)
  · refine (twin_emit ⟨⟨.inl rfl, fun h => by simp at h, fun h => by cases h⟩, Int.le_refl 0⟩).bind fun _ => ?_
    exact twin_markNonNull.bind fun _ => twin_push
  · exact twin_emitPush (.bare rfl rfl rfl)
  · exact twin_emitPush (.bare rfl rfl rfl)
  · exact twin_failAt
  · exact twin_failAt

theorem twin_popElement : Twins cx v F (·.popElement) := by
  refine twin_popTy.bind fun _ => twin_popTy.bind fun _ => twin_checkNull.bind fun _ => ?_
  exact (twin_check rfl).bind fun _ => .pure _

theorem twin_liftArrayLoad {elem : Elem} : Twins cx v F (·.liftArrayLoad elem) :=
  twin_popElement.bind fun _ => twin_emitPush (.bare rfl rfl rfl)

theorem twin_liftArrayStore {elem : Elem} : Twins cx v F (·.liftArrayStore elem) := by
  refine twin_popTy.bind fun _ => twin_popElement.bind fun _ => ?_
  exact .bind (twin_emit (.bare rfl rfl rfl)) fun _ => .pure ()

theorem twin_liftShuffle {op : StackOp} : Twins cx v F fun _ => liftShuffle op := by
  refine .get fun s _ => ?_
  dsimp only
  split
  · exact twin_modifyCursor
  · exact twin_failHere

theorem twin_liftBinary {a b : Ty} {i : Inst} (hop : isSiteless i.op) (hsym : i.sym = []) (hs : i.slot.index = 0) :
    Twins cx v F (·.liftBinary a b i) :=
  twin_popTy.bind fun _ => twin_popTy.bind fun _ => twin_emitPush (.bare hop hsym hs)

theorem twin_checkDivisor {op : ArithOp} {num : Num} : Twins cx v F (·.checkDivisor op num w) :=
  .ite twin_checkDivZero (.pure ())

theorem twin_liftArith {op : ArithOp} {num : Num} : Twins cx v F (·.liftArith op num) := by
  unfold liftArith
  split
  · exact twin_popTy.bind fun _ => twin_emitPush (.bare rfl rfl rfl)
  · refine twin_popTy.bind fun _ => twin_popTy.bind fun _ => twin_checkDivisor.bind fun _ => ?_
    exact twin_emitPush (.bare (by cases op <;> rfl) rfl rfl)

theorem twin_liftBits {op : BitOp} {width : Width} : Twins cx v F (·.liftBits op width) :=
  twin_liftBinary (by cases op <;> rfl) rfl rfl

theorem twin_liftConversion {c : Conversion} : Twins cx v F (·.liftConversion c) :=
  twin_popTy.bind fun _ => twin_emitPush (.bare (by cases c <;> rfl) rfl rfl)

theorem twin_poolField : Twins cx v F (·.poolField i) := by
  unfold poolField
  dsimp only [Twins, vary]
  split
  · exact twin_failAt
  · split
    · exact twin_failAt
    · exact .pure _

theorem mem_of_poolField {p : FieldRef × Ty} (h : (cx.poolField i).run s = (.ok p, s')) :
    .field p.1 ∈ cx.method.pool.entries := by
  unfold poolField at h
  split at h
  · cases h
  · split at h
    · cases h
    · obtain ⟨rfl, -⟩ := ok_of_pure h
      exact mem_of_getField ‹_›

theorem twin_liftField {op : FieldOp} : Twins cx v F (·.liftField i op) := by
  refine twin_poolField.bind_of fun p _ _ hp => ?_
  have hname : Named cx p.1.key := .field (mem_of_poolField hp)
  obtain ⟨ref, ty⟩ := p
  cases op with
  | getStatic => exact twin_emitPush (.named rfl hname rfl)
  | putStatic =>
    exact twin_popTy.bind fun _ => (twin_emit (.named rfl hname rfl)).bind fun _ => .pure ()
  | getField =>
    exact twin_popTy.bind fun _ => twin_checkNull.bind fun _ => twin_emitPush (.named rfl hname rfl)
  | putField =>
    refine twin_popTy.bind fun _ => twin_popTy.bind fun _ => twin_checkNull.bind fun _ => ?_
    exact (twin_emit (.named rfl hname rfl)).bind fun _ => .pure ()

section Limited

variable (hlimit : cx.nestingLimit ≤ v.nestingLimit)
include hlimit

theorem twin_liftBranch {p : Pred} {a b : ValueId} : Twins cx v F (·.liftBranch i p a b) := by
  refine .bind (twin_emit (.bare rfl rfl rfl)) fun _ => (twin_edge hlimit).bind fun _ => ?_
  exact (twin_edge hlimit).bind fun _ => twin_spill.bind fun _ => twin_terminate

theorem twin_liftCompare {p : Pred} {ty : Ty} : Twins cx v F (·.liftCompare i p ty) :=
  twin_popTy.bind fun _ => twin_popTy.bind fun _ => twin_liftBranch hlimit

theorem twin_liftGoto : Twins cx v F (·.liftGoto i) :=
  (twin_edge hlimit).bind fun _ => twin_spill.bind fun _ => twin_terminate

theorem twin_liftSwitch {table : SwitchTable} : Twins cx v F (·.liftSwitch table) := by
  refine twin_popTy.bind fun _ => ?_
  refine (twin_mapM _ fun _ _ => (twin_edge hlimit).bind fun _ => .pure _).bind fun _ => ?_
  exact (twin_edge hlimit).bind fun _ => twin_spill.bind fun _ => twin_terminate

theorem twin_liftValueReturn {op : Opcode} : Twins cx v F (·.liftValueReturn op lane) :=
  twin_popTy.bind fun _ => twin_refuseHere.bind fun _ => twin_exitMethod hlimit

theorem twin_liftVoidReturn {op : Opcode} : Twins cx v F (·.liftVoidReturn op) :=
  twin_refuseHere.bind fun _ => twin_exitMethod hlimit

/-- **An instruction is lifted in the same way.** -/
theorem twin_lift : Twins cx v F (·.lift i) := by
  unfold lift
  cases hop : i.op with
  | nop => exact .pure ()
  | aconstNull | lconst | fconst | dconst => exact twin_emitPush (.bare rfl rfl rfl)
  | iconst | bipush | sipush => exact twin_pushInt
  | ldc | ldcW | ldc2W => exact twin_liftConstant
  | load | loadAt => exact twin_liftLoad
  | store | storeAt => exact twin_liftStore
  | iinc => exact twin_liftIncrement
  | arrayLoad => exact twin_liftArrayLoad
  | arrayStore => exact twin_liftArrayStore
  | stack => exact twin_liftShuffle
  | arith => exact twin_liftArith
  | bits => exact twin_liftBits
  | convert => exact twin_liftConversion
  | lcmp | fcmp => exact twin_liftBinary rfl rfl rfl
  | ifZero => exact twin_popTy.bind fun _ => twin_constInt.bind fun _ => twin_liftBranch hlimit
  | ifInt | ifRef => exact twin_liftCompare hlimit
  | ifNull => exact twin_popTy.bind fun _ => .bind (twin_emit (.bare rfl rfl rfl)) fun _ => twin_liftBranch hlimit
  | goto | gotoW => exact twin_liftGoto hlimit
  | tableswitch | lookupswitch =>
    dsimp only
    split
    · exact twin_liftSwitch hlimit
    · exact twin_failAt
  | valueReturn => exact twin_liftValueReturn hlimit
  | voidReturn => exact twin_liftVoidReturn hlimit
  | field => exact twin_liftField
  | invoke => exact twin_liftInvoke
  | new => exact twin_liftNew
  | newarray => exact twin_liftNewArray
  | anewarray => exact twin_liftRefArray
  | multianewarray => exact twin_liftMultiArray
  | arraylength => exact twin_popTy.bind fun _ => twin_checkNull.bind fun _ => twin_emitPush (.bare rfl rfl rfl)
  | athrow => exact twin_popTy.bind fun _ => twin_terminate
  | checkcast =>
    refine twin_poolClass.bind_of fun _ _ _ href => twin_popTy.bind fun _ => ?_
    exact (twin_emit (.named rfl (.cls (mem_of_poolClass href)) rfl)).bind fun _ => twin_push
  | instanceof =>
    refine twin_poolClass.bind_of fun _ _ _ href => twin_popTy.bind fun _ => ?_
    exact twin_emitPush (.named rfl (.cls (mem_of_poolClass href)) rfl)
  | endfinally => exact twin_endCleanup
  | jsr | jsrW | ret | monitorenter | monitorexit | wide | breakpoint | undefined => exact twin_failAt

/-! ## Methods -/

theorem twin_liftInstruction (hallow : cx.allow.all (·.contains i.op) = true → v.allow.all (·.contains i.op) = true) :
    Twin cx v F (do
      modifyCursor fun c => { c with bci := i.bci }
      refuseIf (!cx.allow.all (·.contains i.op)) i.bci (.notAllowed i.op)
      cx.lift i) (do
      modifyCursor fun c => { c with bci := i.bci }
      refuseIf (!(cx.vary v).allow.all (·.contains i.op)) i.bci (.notAllowed i.op)
      (cx.vary v).lift i) := by
  have hnot {a b : Bool} (h : a = true → b = true) (hb : (!b) = true) : (!a) = true := by
    cases a with
    | false => rfl
    | true => rw [h rfl] at hb; cases hb
  refine twin_modifyCursor.bind fun _ => Twin.bind ?_ fun _ => twin_lift hlimit
  exact twin_refuseIf (hnot hallow) fun hv => ⟨hnot (hv.allow i.op), rfl⟩

theorem twin_liftInstructions (insts : List Instruction)
    (hallow : ∀ i ∈ insts, cx.allow.all (·.contains i.op) = true → v.allow.all (·.contains i.op) = true) :
    Twins cx v F (·.liftInstructions insts) :=
  twin_forM insts fun i hi => twin_liftInstruction hlimit (hallow i hi)

theorem twin_fallThrough {B : CodeBlock} : Twins cx v F (·.fallThrough B) := by
  refine .get fun s _ => ?_
  refine (twin_rethrow (twin_edge hlimit) twin_trace trace_ne_error).bind fun _ => ?_
  exact twin_spill.bind fun _ => twin_terminate.bind fun _ => twin_trace

/-- A block is lifted in the same way if the limits are as wide for its instructions. -/
theorem twin_liftBlock {B : CodeBlock} {e : Entry}
    (hallow : ∀ i ∈ B.insts, cx.allow.all (·.contains i.op) = true → v.allow.all (·.contains i.op) = true) :
    Twins cx v F (·.liftBlock B e) := by
  refine twin_modifyCursor.bind fun _ => twin_reload.bind fun _ => ?_
  refine (twin_liftInstructions hlimit _ hallow).bind fun _ => .get fun _ _ => ?_
  exact .ite (.pure ()) (twin_fallThrough hlimit)

end Limited

theorem twin_liftAt {e : Entry} (hlimit : cx.Admits v) : Twins cx v F (·.liftAt bci e) :=
  (twin_require _).bind fun _ => twin_liftBlock hlimit.nesting fun i _ => hlimit.allow i.op

theorem run_liftAll (cx : Context) (rounds n : Nat) (s : State) :
    (cx.liftAll (rounds + 1) n).run s = match s.entries[n]?, s.sites with
      | some (bci, e), _ => (do cx.liftAt bci e; cx.liftAll rounds (n + 1) : LiftM Unit).run s
      | none, [] => (pure () : LiftM Unit).run s
      | none, _ :: _ => (do
          modify fun t => { t with sites := [] }
          s.sites.forM cx.attachPad
          cx.liftAll rounds n : LiftM Unit).run s := by
  rw [liftAll, run_get]
  cases s.entries[n]? with
  | some x => rfl
  | none => cases s.sites <;> rfl

/-- **The rounds are the same.** -/
theorem twin_liftAll (hlimit : cx.Admits v) (hF : F) (rounds n : Nat) :
    Twins cx v F (·.liftAll rounds n) := by
  induction rounds generalizing n with
  | zero => exact .pure ()
  | succ rounds ih =>
    intro s r
    rw [run_liftAll, run_liftAll]
    cases s.entries[n]? with
    | some x => exact ((twin_liftAt hlimit).bind fun _ => ih (n + 1)) s r
    | none =>
      cases hs : s.sites with
      | nil => exact ⟨r, .refl, rfl⟩
      | cons site sites =>
        refine Twin.bind (twin_modify (fun _ => .sites (.inr hF)) fun _ _ => rfl) (fun _ => ?_) s r
        exact (twin_forM _ fun _ _ => twin_attachPad hlimit.nesting).bind fun _ => ih n

theorem twin_createBlocks : Twins cx v F (·.createBlocks) := by
  refine (twin_newBlock .entry).bind fun _ => Twin.bind (twin_forM _ fun B _ => ?_) fun _ => .pure _
  exact (twin_newBlock .code).bind fun _ => twin_changeBlock fun _ => ⟨rfl, rfl, rfl, rfl⟩

theorem twin_markUnreachable : Twins cx v F (·.markUnreachable) :=
  .get fun _ _ => twin_forM _ fun _ _ => .ite twin_setTerm (.pure ())

theorem twin_buildRegions : Twins cx v F (·.buildRegions) := by
  refine twin_forM _ fun e _ => (twin_temp (.selector _)).bind_of fun slot _ _ hslot => ?_
  refine twin_modify (fun s => .regions ?_) fun _ _ => rfl
  unfold addRow
  split
  · refine hasSlot_map fun r => ?_
    split <;> rfl
  · have hs := index_of_temp hslot
    intro slot
    simp only [State.HasSlot, mem_append, mem_singleton]
    constructor
    · rintro (h | ⟨r, hr | rfl, rfl⟩)
      exacts [.inl h, .inr ⟨r, hr, rfl⟩, .inl hs]
    · rintro (h | ⟨r, hr, rfl⟩)
      exacts [.inl h, .inr ⟨r, .inl hr, rfl⟩]

theorem twin_storeParams (tys : List Ty) (index slot : Nat) : Twins cx v F fun _ => storeParams b index slot tys := by
  induction tys generalizing index slot with
  | nil => exact .pure ()
  | cons ty tys ih =>
    refine .bind (twin_emitIn (.bare rfl rfl rfl)) fun _ => ?_
    exact (twin_emitIn (.plain rfl rfl (Int.natCast_nonneg _))).bind fun _ => ih _ _

theorem twin_openModule : Twins cx v F (·.openModule) := by
  refine .bind (twin_modifyModule fun _ => ⟨rfl, rfl, rfl, rfl⟩) fun _ => twin_buildRegions.bind fun _ => twin_createBlocks.bind fun _ => ?_
  refine .bind (twin_modifyModule fun _ => ⟨rfl, rfl, rfl, rfl⟩) fun _ => (twin_storeParams _ _ _).bind fun _ => ?_
  exact twin_setTerm.bind fun _ => twin_enqueue

theorem twin_finishCleanups : Twins cx v F fun _ => finishCleanups :=
  .get fun _ _ => twin_forM _ fun _ _ => twin_forM _ fun _ _ => twin_setTerm

theorem twin_closeModule : Twins cx v F (·.closeModule) :=
  twin_markUnreachable.bind fun _ => twin_finishCleanups.bind fun _ => .get fun _ _ => twin_modifyModule fun _ => ⟨rfl, rfl, rfl, rfl⟩

/-- **A method is lifted in the same way.** -/
theorem twin_build (hlimit : cx.Admits v) : Twin cx v True cx.build (cx.vary v).build :=
  twin_openModule.bind fun _ => (twin_liftAll hlimit trivial _ _).bind fun _ => twin_closeModule

end Context

end Bytelift.Lift
