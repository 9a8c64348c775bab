import Bytelift.Proofs.Lift.Sites

/-!
# Faults go to their landingpads

An exception at a protected bci is raised by a check, by a call or look-up, by a throw, or by a division.
The first three unwind. A division is preceded by a check of its divisor, or the divisor is a constant other
than zero, so that it raises nothing. There is one exception: the check reads all 64 bits of the divisor, and
a division of i32 only the lower half.

Results:
* `liftMethod_faults`: **every other fault at a protected bci goes to the landingpad of the bci.**
-/

namespace Bytelift

open Ir Machine

variable {v : ValueId} {i : Inst} {before : List ValueId}

namespace Machine

/-- A division of i32 by a value of which only the lower half is zero. -/
def DividesByWide (i : Inst) (f : Frame) : Prop :=
  (i.op = .div ∨ i.op = .rem) ∧ i.ty = .i32 ∧
    ∃ d x, i.args[1]? = some d ∧ lookup? f.values d = some x ∧ x.i ≠ 0 ∧ x.int32 = 0

section Faults

variable {call : Caller} {mod : Module} {c : Config} {k : Block} {f : Frame} {s : State}

theorem execFrom_append {vs ws : List ValueId} {f1 : Frame} {s1 : State} (h : Executes call mod vs f s f1 s1) :
    (execFrom call mod k (vs ++ ws) f).run s = (execFrom call mod k ws f1).run s1 := by
  induction h with
  | done => rfl
  | step hi he _ ih =>
    rw [List.cons_append, execFrom_cons, hi]
    dsimp only
    rw [he]
    exact ih

/-- A fault of the last instruction of a block that unwinds goes to the landingpad. -/
theorem step_of_fault {obj : Option Ref} {s' : State} {x u : BlockId}
    (hk : mod.block? c.block = some k) (hids : k.insts.toList = before ++ [v])
    (hx : Executes call mod before c.frame (c.state.noted k.label) f s) (hi : mod.inst? v = some i)
    (he : (exec call mod i f).run s.counted = (.error (.thrown obj), s')) (ht : k.term = .mayUnwind x u) (hu : u ≠ noBlock) :
    Step call mod c ⟨u, { f with inflight := obj }, s'⟩ := by
  have hlast : v = k.last := by
    unfold Block.last
    rw [← Array.getLast?_toList, hids]
    simp
  refine ⟨k, hk, ?_⟩
  rw [hids, execFrom_append hx, execFrom_cons, hi]
  dsimp only
  rw [he]
  dsimp only
  rw [if_pos (unwindsAt_iff.2 ⟨x, u, ht, hlast, hu⟩), ht]
  rfl

theorem step_of_throw {u : ValueId} {x : Value} {r : Ref} {s' : State} (hk : mod.block? c.block = some k)
    (hx : Executes call mod k.insts.toList c.frame (c.state.noted k.label) f s) (ht : k.term = .throw v u) (hu : u ≠ noBlock)
    (hv : lookup? f.values v = some x) (hr : (thrownObject x).run s = (.ok r, s')) :
    Step call mod c ⟨u, { f with inflight := some r }, s'⟩ := by
  refine step_of_executes hk hx ?_
  unfold execTerm
  rw [ht]
  rw [run_bind_of_ok (Frame.run_value_ok.2 ⟨hv, rfl⟩), run_bind_of_ok hr, if_pos hu]
  rfl

theorem exists_thrownObject (x : Value) (s : State) : ∃ r s', (thrownObject x).run s = (.ok r, s') := by
  unfold thrownObject
  split
  · exact ⟨_, _, rfl⟩
  · exact ⟨_, _, rfl⟩

end Faults

end Machine

namespace Lift

variable {cx : Context} {s : State} {mod : Module} {call : Caller} {c : Config} {k : Block} {f : Frame} {s1 : Machine.State}

theorem LabelledPad.ne_noBlock {bci : Int} {p : BlockId} (h : mod.LabelledPad bci p) : p ≠ noBlock := by
  rintro rfl
  obtain ⟨k, -, hk, -⟩ := h
  cases hk

namespace Finished

section

variable (hfin : Finished cx s)

include hfin

theorem nodup {b : BlockId} (hk : s.mod.block? b = some k) :
    k.insts.toList.Nodup := by
  obtain ⟨D, hg, -⟩ := hfin.good
  exact (hg.block hk).nodup

theorem stands {P : BlockId → Prop} {args : List Value}
    {st : Machine.State} (hpath : Path call s.mod P (.start s.mod args st) c) : Stands s.mod c.block [] c.frame := by
  obtain ⟨D, hg, -⟩ := hfin.good
  obtain ⟨k, hk, hkind⟩ := hg.entry
  rw [← show s.mod.entry = 0 from congrArg Module.Header.entry hg.header] at hk
  refine hpath.stands hfin.sound hfin.nodup ?_
  exact stands_start hk (fun hcont => by cases hkind.symm.trans hcont) args st

/-- A check behind which a division stands read all bits of the divisor. -/
theorem divisor_wide {after : List ValueId} {d : ValueId}
    {x : Value} (hk : s.mod.block? c.block = some k) (hids : k.insts.toList = before ++ v :: after)
    (hst : Stands s.mod c.block before f) (hi : s.mod.inst? v = some i) (hop : i.op = .div ∨ i.op = .rem)
    (hd : i.args[1]? = some d) (hx : lookup? f.values d = some x) (hz : IsZero i.ty x) : DividesByWide i f := by
  obtain ⟨D, hg, -⟩ := hfin.good
  obtain ⟨a, d', hargs, hnon⟩ := (hg.block hk).divisor hids hi ⟨hop, hz.imp And.left And.left⟩
  rw [hargs] at hd
  obtain rfl : d' = d := Option.some.inj hd
  obtain ⟨g, j, hknown, hj, hsay⟩ := hnon
  have htold := hst.told hknown hj
  have hne : x.i ≠ 0 := by
    unfold Told at htold
    rcases hsay with ⟨hcheck, hargs'⟩ | ⟨rfl, hconst, himm⟩
    · rw [hcheck, hargs'] at htold
      obtain ⟨a', y, ha', hy, hne⟩ := htold
      obtain rfl := Option.some.inj ha'
      obtain rfl := Option.mem_unique hx hy
      exact hne
    · rw [hconst] at htold
      have hid := (available_args hfin.sound hk hids hknown hj).1
      rw [hid] at htold
      obtain rfl := Option.mem_unique hx htold
      exact himm
  rcases hz with ⟨hty, hzero⟩ | ⟨-, hzero⟩
  · exact ⟨hop, hty, d', x, by rw [hargs]; rfl, hx, hne, hzero⟩
  · exact absurd hzero hne

/-- A division is not what a block unwinds for. -/
theorem not_unwindsAt (hk : s.mod.block? c.block = some k)
    (hi : s.mod.inst? v = some i) (hop : i.op = .div ∨ i.op = .rem) : unwindsAt k v = false := by
  by_contra hne
  obtain ⟨x, u, ht, hlast, -⟩ := unwindsAt_iff.1 (Bool.not_eq_false _ ▸ hne)
  have hterm := (hfin.sound.block hk).term
  rw [ht] at hterm
  obtain ⟨w, j, hback, hj, hmay⟩ := hterm.2.2
  have hw : v = w := by rw [hlast, Block.last, hback]; rfl
  obtain rfl := Option.mem_unique hi (hw ▸ hj)
  rcases hop with hop | hop <;> rw [hop] at hmay <;> cases hmay

/-- **A fault at a protected bci goes to its landingpad unless it is that of a division by a wide value.** -/
theorem fault_iff {after : List ValueId}
    {obj : Option Ref} {s' : Machine.State} (hst : Stands s.mod c.block [] c.frame) (hk : s.mod.block? c.block = some k)
    (hids : k.insts.toList = before ++ v :: after)
    (hx : Executes call s.mod before c.frame (c.state.noted k.label) f s1) (hi : s.mod.inst? v = some i)
    (hp : cx.table.isProtected i.bci = true) (he : (exec call s.mod i f).run s1.counted = (.error (.thrown obj), s')) :
    (∃ p, s.mod.IsPad i.bci p ∧ Step call s.mod c ⟨p, { f with inflight := obj }, s'⟩) ↔ ¬ DividesByWide i f := by
  have unwinds (hmay : i.op.mayThrow = true) : ∃ p, s.mod.IsPad i.bci p ∧ Step call s.mod c ⟨p, { f with inflight := obj }, s'⟩ := by
    obtain ⟨rfl, x, u, ht, hpad⟩ := hfin.padsForSites.inst hk hids hi hmay hp
    exact ⟨u, hpad.isPad, step_of_fault hk hids hx hi he ht (LabelledPad.ne_noBlock hpad)⟩
  constructor
  · rintro ⟨p, -, k', hk', hrun⟩ ⟨hop, -⟩
    obtain rfl := Option.mem_unique hk hk'
    rw [hids, execFrom_append hx, execFrom_cons, hi] at hrun
    dsimp only at hrun
    rw [he] at hrun
    dsimp only at hrun
    rw [hfin.not_unwindsAt hk hi hop] at hrun
    cases hrun
  · intro hno
    cases exec_stop he with
    | check hop => exact unwinds hop
    | callee hop _ => exact unwinds (by rw [hop]; rfl)
    | divisor hop hd hval hz =>
      have hhere := hst.executes hfin.sound hfin.nodup hk hids hx
      exact absurd (hfin.divisor_wide hk hids hhere hi hop hd hval hz) hno

/-- **A throw at a protected bci goes to its landingpad.** -/
theorem throw_unwinds {u : ValueId} {i : Instruction}
    (hst : Stands s.mod c.block [] c.frame) (hk : s.mod.block? c.block = some k) (ht : k.term = .throw v u)
    (hlast : LastOf cx k.start i) (hp : cx.table.isProtected i.bci = true)
    (hx : Executes call s.mod k.insts.toList c.frame (c.state.noted k.label) f s1) :
    ∃ x r s' p, lookup? f.values v = some x ∧ (thrownObject x).run s1 = (.ok r, s') ∧ s.mod.IsPad i.bci p ∧
      Step call s.mod c ⟨p, { f with inflight := some r }, s'⟩ := by
  obtain ⟨j, hj, -, hpad⟩ := hfin.padsForSites.throw hk ht
  obtain rfl := hlast.unique hfin.tiled hj
  rw [if_pos hp] at hpad
  have hterm := (hfin.sound.block hk).term
  rw [ht] at hterm
  obtain ⟨-, w, hw, -⟩ := hterm.1
  obtain ⟨hpos, hlt⟩ := lookup?_bounds hw
  obtain ⟨x, hx'⟩ := exists_lookup? hpos (show v < (f.values.size : Int) by rw [hx.size, hst.size]; exact hlt)
  obtain ⟨r, s', hr⟩ := exists_thrownObject x s1
  exact ⟨x, r, s', u, hx', hr, hpad.isPad, step_of_throw hk hx ht (LabelledPad.ne_noBlock hpad) hx' hr⟩

end

end Finished

end Lift

/-- **What is raised at a protected bci goes to the landingpad of the bci**, in the same activation and with the
object in flight. This holds of every instruction but a division of i32 by a value of which only the lower half
is zero, and of every throw. -/
theorem liftMethod_faults {m : Method} {settings : Settings} {mod : Module} {cx : Lift.Context}
    (h : liftMethod m settings = .ok mod) (hcx : Lift.context m settings = .ok cx) {call : Caller} {args : List Machine.Value}
    {st : Machine.State} {c : Config} {k : Block} {f : Frame} {s : Machine.State}
    (hpath : Path call mod (fun _ => True) (.start mod args st) c) (hk : mod.block? c.block = some k) :
    (∀ {before v after i obj s'}, k.insts.toList = before ++ v :: after →
      Executes call mod before c.frame (c.state.noted k.label) f s → mod.inst? v = some i →
      HandlerTable.isProtected m.exceptions i.bci = true →
      (exec call mod i f).run s.counted = (.error (.thrown obj), s') →
      ((∃ p, mod.IsPad i.bci p ∧ Step call mod c ⟨p, { f with inflight := obj }, s'⟩) ↔ ¬ Machine.DividesByWide i f)) ∧
    ∀ {v u i}, k.term = .throw v u → Lift.LastOf cx k.start i → HandlerTable.isProtected m.exceptions i.bci = true →
      Executes call mod k.insts.toList c.frame (c.state.noted k.label) f s →
      ∃ x r s' p, lookup? f.values v = some x ∧ (Machine.thrownObject x).run s = (.ok r, s') ∧ mod.IsPad i.bci p ∧
        Step call mod c ⟨p, { f with inflight := some r }, s'⟩ := by
  obtain ⟨fin, hfin, rfl⟩ := Lift.liftMethod_finished h hcx
  obtain ⟨rfl, -, -⟩ := Lift.context_ok hcx
  have hst := hfin.stands hpath
  exact ⟨fun hids hx hi hp he => hfin.fault_iff hst hk hids hx hi hp he,
    fun ht hlast hp hx => hfin.throw_unwinds hst hk ht hlast hp hx⟩

/-- A method that divides one by its argument and then throws, in a range with a handler for everything. -/
def guardedThrow : Method :=
  { owner := "T", name := "t", desc := "(I)V", isStatic := true
    maxLocals := 1, code := [0x04, 0x1a, 0x6c, 0x57, 0x01, 0xbf, 0x57, 0xb1]
    exceptions := [{ start := 0, stop := 6, handler := 6 }] }

/-- The division by zero at bci 2 and the throw at bci 5 go to their landingpads. -/
theorem guardedThrow_faults : ∃ mod, liftMethod guardedThrow {} = .ok mod ∧
    (∃ c c' p, Path (invokeAt 8) mod (fun _ => True) (.start mod [.ofInt 0] { env := Env.new {} }) c ∧
      mod.IsPad 2 p ∧ Step (invokeAt 8) mod c c' ∧ c'.block = p) ∧
    ∃ c c' p, Path (invokeAt 8) mod (fun _ => True) (.start mod [.ofInt 1] { env := Env.new {} }) c ∧
      mod.IsPad 5 p ∧ Step (invokeAt 8) mod c c' ∧ c'.block = p := by
  have hrun : (Lift.lifts guardedThrow fun mod cx =>
      (((Config.start mod [.ofInt 0] { env := Env.new {} }).after? (invokeAt 8) mod (fun _ => True) 1).any fun c =>
        (mod.block? c.block).any fun k => ((mod.inst? k.last).any fun i => i.op = .checkDivZero ∧ i.bci = 2) &&
        !k.term.isThrow && (c.next? (invokeAt 8) mod).any fun c' => c'.block ∉ k.term.ways) &&
      ((Config.start mod [.ofInt 1] { env := Env.new {} }).after? (invokeAt 8) mod (fun _ => True) 2).any fun c =>
        (mod.block? c.block).any fun k => k.term.isThrow &&
        (c.next? (invokeAt 8) mod).isSome &&
        cx.partition.blocks.any fun B => B.insts.getLast?.any fun i => Lift.LastOf cx k.start i && (i.bci : Int) = 5) = true := by
    decide +kernel
  obtain ⟨mod, cx, hmod, hcx, hrun⟩ := Lift.exists_of_lifts hrun
  simp only [Bool.and_eq_true, decide_eq_true_eq, Option.any_eq_true, List.any_eq_true, Option.isSome_iff_exists,
    Bool.not_eq_true'] at hrun
  obtain ⟨⟨c, hc, k, hk, ⟨⟨i, hi, hop, hbci⟩, hno⟩, c₁, hc₁, hway⟩, d, hd, kd, hkd, ⟨hthrow, d₁, hd₁⟩, B, -, last, -, hlast, hlbci⟩ := hrun
  have hp : HandlerTable.isProtected guardedThrow.exceptions 2 = true ∧ HandlerTable.isProtected guardedThrow.exceptions 5 = true := by
    decide
  have hpath := Machine.path_of_after? hc
  have hpathd := Machine.path_of_after? hd
  refine ⟨mod, hmod, ?_, ?_⟩
  · obtain ⟨k', hk', f, s, ⟨-, hterm⟩ | ⟨before, v, after, j, obj, hids, hx, hj, he, hun, -, -⟩⟩ := (Machine.step_iff.2 hc₁).cases
    · obtain rfl := Option.mem_unique hk hk'
      rcases Machine.execTerm_jump hterm with ⟨hmem, -, -⟩ | ⟨v, -, -, ht, -, -, -, -⟩
      · exact absurd hmem hway
      · rw [ht] at hno
        cases hno
    · obtain rfl := Option.mem_unique hk hk'
      obtain ⟨x, u, -, rfl, -⟩ := Machine.unwindsAt_iff.1 hun
      obtain rfl := Option.mem_unique hi hj
      have hnarrow : ¬ Machine.DividesByWide i f := by
        rintro ⟨hdiv | hrem, -⟩
        · cases hop.symm.trans hdiv
        · cases hop.symm.trans hrem
      obtain ⟨p, hpad, hstep⟩ := ((liftMethod_faults hmod hcx hpath hk).1 hids hx hi (hbci ▸ hp.1) he).2 hnarrow
      exact ⟨c, _, p, hpath, hbci ▸ hpad, hstep, rfl⟩
  · obtain ⟨v, u, ht⟩ : ∃ v u, kd.term = .throw v u := by
      generalize kd.term = t at hthrow
      cases t with
      | throw v u => exact ⟨v, u, rfl⟩
      | _ => cases hthrow
    obtain ⟨k', hk', f, s, ⟨hx, -⟩ | ⟨-, v, -, -, -, -, -, -, -, hun, -, -⟩⟩ := (Machine.step_iff.2 hd₁).cases
    · obtain rfl := Option.mem_unique hkd hk'
      obtain ⟨x, r, s', p, -, -, hpad, hstep⟩ := (liftMethod_faults hmod hcx hpathd hkd).2 ht hlast (hlbci ▸ hp.2) hx
      exact ⟨d, _, p, hpathd, hlbci ▸ hpad, hstep, rfl⟩
    · obtain rfl := Option.mem_unique hkd hk'
      obtain ⟨x, u', hmay, -⟩ := Machine.unwindsAt_iff.1 hun
      cases ht.symm.trans hmay

/-- A remainder in a range with a handler for everything. -/
def guardedRemainder : Method :=
  { owner := "T", name := "r", desc := "(I)I", isStatic := true
    maxLocals := 1, code := [0x10, 0x07, 0x1a, 0x70, 0xac, 0x57, 0x02, 0xac]
    exceptions := [{ start := 0, stop := 5, handler := 5 }] }

/-- **A remainder by `2 ^ 32` faults, and the fault leaves the method**, although the remainder is protected: its
check reads all bits of the divisor. -/
theorem guardedRemainder_escapes : HandlerTable.isProtected guardedRemainder.exceptions 3 = true ∧
    ∃ mod c k v i obj s', liftMethod guardedRemainder {} = .ok mod ∧
      Path (invokeAt 8) mod (fun _ => True) (.start mod [.ofInt (2 ^ 32)] { env := Env.new {} }) c ∧
      mod.block? c.block = some k ∧ k.insts.toList.head? = some v ∧ mod.inst? v = some i ∧ i.op = .rem ∧ i.bci = 3 ∧
      (exec (invokeAt 8) mod i c.frame).run (c.state.noted k.label).counted = (.error (.thrown obj), s') ∧
      (∀ c', ¬ Step (invokeAt 8) mod c c') ∧
      ((Machine.runModule mod [.ofInt (2 ^ 32)]).run { env := Env.new {} }).1 = .error (.thrown obj) := by
  have hrun : ((liftMethod guardedRemainder {}).toOption.any fun mod =>
      ((Machine.runModule mod [.ofInt (2 ^ 32)]).run { env := Env.new {} }).1 = .error (.thrown (some 0)) &&
      ((Config.start mod [.ofInt (2 ^ 32)] { env := Env.new {} }).after? (invokeAt 8) mod (fun _ => True) 2).any fun c =>
        (mod.block? c.block).any fun k => k.insts.toList.head?.any fun v => (mod.inst? v).any fun i => i.op = .rem && i.bci = 3 &&
        ((exec (invokeAt 8) mod i c.frame).run (c.state.noted k.label).counted).1 = .error (.thrown (some 0)) &&
        (c.next? (invokeAt 8) mod).isNone) = true := by
    decide +kernel
  obtain ⟨mod, hmod, hrun⟩ := exists_ok_of_any hrun
  simp only [Bool.and_eq_true, decide_eq_true_eq, Option.any_eq_true, Option.isNone_iff_eq_none] at hrun
  obtain ⟨hwhole, c, hc, k, hk, v, hv, i, hi, ⟨⟨hop, hbci⟩, he⟩, hnext⟩ := hrun
  refine ⟨by decide, mod, c, k, v, i, some 0, _, hmod, Machine.path_of_after? hc, hk, hv, hi, hop, hbci, Prod.ext he rfl, fun c' hstep => ?_, hwhole⟩
  rw [Machine.step_iff.1 hstep] at hnext
  cases hnext

end Bytelift
