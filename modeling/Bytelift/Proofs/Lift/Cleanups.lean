import Bytelift.Proofs.Lift.Verified

/-!
# Running cleanup code

Whoever enters the cleanup code of a region stores in the selector of the region where to go on, and the
end of the code switches on the selector. In between, the selector keeps its value as long as the region
is not entered again.

Results:
* `Finished.excursion`: **cleanup code that ends goes on where the block that entered it selected.**
-/

namespace Bytelift

open Ir Option List Machine Module

variable {v : ValueId}

/-- A block enters a region: it stores into the selector of the region. -/
def Ir.Module.EntersRegion (m : Module) (h : Int) (b : BlockId) : Prop :=
  ∃ n : Nat, m.temps[n]? = some (Lift.selectorName h) ∧ m.Stores b ⟨.temp, n⟩

/-- A block ends the code of a region: it switches on the selector of the region. -/
def Ir.Module.EndsRegion (m : Module) (h : Int) (b : BlockId) : Prop :=
  ∃ (k : Block) (v : ValueId) (cs : List SwitchCase) (i : Inst) (n : Nat), m.block? b = some k ∧
    k.term = .switch v noBlock cs ∧ m.inst? v = some i ∧ i.op = .loadSlot ∧ i.slot = ⟨.temp, n⟩ ∧
    m.temps[n]? = some (Lift.selectorName h)

namespace Ir

/-- Which temporary has a name can be found out. -/
instance Module.decidableTemp (m : Module) (name : Text) (P : Nat → Prop) [DecidablePred P] :
    Decidable (∃ n, m.temps[n]? = some name ∧ P n) :=
  decidable_of_iff (∃ n < m.temps.size, m.temps[n]? = some name ∧ P n) <| by
  constructor
  · rintro ⟨n, -, hn, h⟩
    exact ⟨n, hn, h⟩
  · rintro ⟨n, hn, h⟩
    exact ⟨n, (Array.getElem?_eq_some_iff.1 hn).1, hn, h⟩

instance (m : Module) (h : Int) (b : BlockId) : Decidable (m.EntersRegion h b) :=
  inferInstanceAs (Decidable (∃ _, _ ∧ _))

instance (m : Module) (h : Int) (b : BlockId) : Decidable (m.EndsRegion h b) :=
  decidable_of_iff (∃ n : Nat, m.temps[n]? = some (Lift.selectorName h) ∧ (m.block? b).any fun k =>
    match k.term with
    | .switch v d _ => d = noBlock && (m.inst? v).any fun i => i.op = .loadSlot ∧ i.slot = ⟨.temp, n⟩
    | _ => false) <| by
  constructor
  · rintro ⟨n, hn, hb⟩
    obtain ⟨k, hk, hterm⟩ := (Option.any_eq_true _ _).1 hb
    split at hterm
    · rename_i v d cs ht
      simp only [Bool.and_eq_true, decide_eq_true_eq, Option.any_eq_true] at hterm
      obtain ⟨rfl, i, hi, hop, hslot⟩ := hterm
      exact ⟨k, v, cs, i, n, hk, ht, hi, hop, hslot, hn⟩
    · cases hterm
  · rintro ⟨k, v, cs, i, n, hk, ht, hi, hop, hslot, hn⟩
    refine ⟨n, hn, (Option.any_eq_true _ _).2 ⟨k, hk, ?_⟩⟩
    rw [ht]
    simp [hi, hop, hslot]

end Ir

namespace Machine

/-- From a block that enters a region, a run comes to an end of the code of the region and executes it. The
blocks on the way have a property. -/
def Excursion (call : Caller) (mod : Module) (P : BlockId → Prop) (h : Int) (c c' : Config) : Prop :=
  ∃ c₁ e, Step call mod c c₁ ∧ Path call mod P c₁ e ∧ mod.EndsRegion h e.block ∧ Step call mod e c'

section Executes

variable {call : Caller} {mod : Module} {f f' : Frame} {s s' : State}

theorem executes_append {vs ws : List ValueId} : Executes call mod (vs ++ ws) f s f' s' ↔
    ∃ f1 s1, Executes call mod vs f s f1 s1 ∧ Executes call mod ws f1 s1 f' s' := by
  induction vs generalizing f s with
  | nil =>
    constructor
    · exact fun h => ⟨f, s, .done, h⟩
    · rintro ⟨f1, s1, ⟨⟩, h⟩
      exact h
  | cons v vs ih =>
    constructor
    · rintro (_ | ⟨hi, he, h⟩)
      obtain ⟨f2, s2, h1, h2⟩ := ih.1 h
      exact ⟨f2, s2, .step hi he h1, h2⟩
    · rintro ⟨f2, s2, _ | ⟨hi, he, h1⟩, h2⟩
      exact .step hi he (ih.2 ⟨f2, s2, h1, h2⟩)

theorem executes_singleton : Executes call mod [v] f s f' s' ↔
    ∃ i, mod.inst? v = some i ∧ (exec call mod i f).run s.counted = (.ok f', s') := by
  constructor
  · rintro (_ | ⟨hi, he, ⟨⟩⟩)
    exact ⟨_, hi, he⟩
  · rintro ⟨i, hi, he⟩
    exact .step hi he .done

end Executes

namespace Excursion

variable {call : Caller} {mod : Module} {P : BlockId → Prop} {h : Int} {c c' : Config} {slot : Slot}

/-- A slot keeps its value if neither the block that enters the region nor those on the way store into it. -/
theorem read? (hx : Excursion call mod P h c c') (hc : ¬ mod.Stores c.block slot) (hP : ∀ b, P b → ¬ mod.Stores b slot) :
    c'.frame.read? slot = c.frame.read? slot := by
  obtain ⟨c1, e, hin, hpath, -, hout⟩ := hx
  rw [hout.read? (hP _ hpath.last), hpath.read? hP, hin.read? hc]

theorem size (hx : Excursion call mod P h c c') : c'.frame.values.size = c.frame.values.size := by
  obtain ⟨c1, e, hin, hpath, -, hout⟩ := hx
  rw [hout.size, hpath.size, hin.size]

end Excursion

end Machine

namespace Lift

variable {cx : Context} {s : State} {m : Module} {call : Caller} {c c' : Config} {h : Int} {next b : BlockId}
  {kind : BlockKind}

/-- The selector of a region says where to go on. -/
def Selects (s : State) (f : Frame) (h : Int) (next : BlockId) : Prop :=
  ∃ r ∈ s.regions, r.handler = h ∧ ∃ (key : Nat) (v : Value), r.exits[key]? = some next ∧
    f.read? r.selector = some v ∧ v.i = Int64.ofNat key

/-- The case of a key is the exit at its position. -/
theorem Region.find?_cases (r : Region) (key : Nat) :
    r.cases.find? (·.key = (key : Int)) = (r.exits[key]?).map fun b => ⟨key, b⟩ := by
  have general (l : List BlockId) (a n : Nat) :
      ((l.zipIdx a).map fun x => (⟨x.2, x.1⟩ : SwitchCase)).find? (·.key = ((n + a : Nat) : Int)) =
        (l[n]?).map fun b => ⟨((n + a : Nat) : Int), b⟩ := by
    induction l generalizing a n with
    | nil => rfl
    | cons x l ih =>
      cases n with
      | zero => simp
      | succ n =>
        have hnext := ih (a + 1) n
        rw [show n + (a + 1) = n + 1 + a by omega] at hnext
        rw [zipIdx_cons, map_cons, find?_cons_of_neg (by simp; omega), hnext]
        rfl
  exact general r.exits 0 key

/-- A key that fits 32 bits is read as it was stored. -/
theorem toInt_int32_ofNat {v : Value} {n : Nat} (hv : v.i = Int64.ofNat n) (hn : n < 2 ^ 31) : v.int32.toInt = n := by
  have hmod : (n : Int).bmod Int32.size = n := Int.bmod_eq_of_le (by omega) (by simp [Int32.size]; omega)
  rw [Value.int32, hv]
  simpa using hmod

/-- A block that enters a region selects where to go on. -/
theorem Enters.selects (he : Enters cx s kind c.block h next) (hs : Step call s.mod c c') :
    c'.block = cx.blockOf h ∧ Selects s c'.frame h next := by
  obtain ⟨r, hr, rfl, key, i, j, hexit, ⟨k, hk, -, ht, his⟩, hi, himm, hj, hslot, hargs⟩ := he
  obtain ⟨hx, -, hway⟩ := hs.completes hk (by rw [ht]; rfl)
  rw [ht] at hway
  refine ⟨mem_singleton.1 hway, r, hr, rfl, key, ?_⟩
  -- the constant is executed, and then stored
  generalize k.insts.toList = ids at his hx
  obtain _ | ⟨hv, _ | ⟨hw, ⟨⟩⟩⟩ := his
  obtain _ | ⟨hv', hconst, _ | ⟨hw', hstore, ⟨⟩⟩⟩ := hx
  obtain rfl := mem_unique hv hv'
  obtain rfl := mem_unique hw hw'
  rw [exec_const call s.mod _ hi] at hconst
  cases hconst
  rcases exec_ok hstore with ⟨-, -, a, v, ha, hval, hwrite⟩ | ⟨hne, -⟩
  · rw [hargs] at ha
    obtain rfl := Option.some.inj ha
    obtain rfl := Frame.eq_of_lookup?_define hval
    exact ⟨_, hexit, by rw [← hslot, Frame.read?_write? hwrite, if_pos rfl], himm⟩
  · exact absurd hj hne

/-- What a block stores into is told by its instructions. -/
theorem stores_iff_of_holds {is : List Inst} {t : Terminator} {slot : Slot}
    (hh : m.Holds b kind is t) : m.Stores b slot ↔ ∃ i ∈ is, i.op = .storeSlot ∧ i.slot = slot := by
  obtain ⟨k, hk, -, -, his⟩ := hh
  constructor
  · rintro ⟨k', v, i, hk', hv, hi, hop, hslot⟩
    obtain rfl := mem_unique hk hk'
    obtain ⟨j, hj, hij⟩ := exists_of_mem_left his (Array.mem_toList_iff.2 hv)
    obtain rfl := mem_unique hi hij
    exact ⟨i, hj, hop, hslot⟩
  · rintro ⟨i, hi, hop, hslot⟩
    obtain ⟨v, hv, hvi⟩ := exists_of_mem_right his hi
    exact ⟨k, v, i, hk, Array.mem_toList_iff.1 hv, hvi, hop, hslot⟩

/-- A block that enters a region stores into its selector only. -/
theorem Enters.eq_of_stores (hg : GoodRegions cx s) (he : Enters cx s kind b h next) {n : Nat} {name : Text}
    (hn : s.mod.temps[n]? = some name) (hstore : s.mod.Stores b ⟨.temp, n⟩) : name = selectorName h := by
  obtain ⟨r, hr, rfl, key, i, j, -, hholds, hi, -, hj, hslot, -⟩ := he
  obtain ⟨n', hn', hname'⟩ := hg.selector r hr
  obtain ⟨i', hi', hop, hslot'⟩ := (stores_iff_of_holds hholds).1 hstore
  rcases mem_pair.1 hi' with rfl | rfl
  · rw [hi] at hop
    cases hop
  · obtain ⟨-, heq⟩ := Slot.mk.inj (hslot'.symm.trans (hslot.trans hn'))
    obtain rfl := Int.ofNat.inj heq
    exact mem_unique hn hname'

/-- A block that enters a region enters no other one. -/
theorem Enters.entersRegion_iff (hg : GoodRegions cx s) (he : Enters cx s kind b h next)
    (h' : Int) : s.mod.EntersRegion h' b ↔ h' = h := by
  constructor
  · rintro ⟨n, hname, hstore⟩
    exact selectorName_injective (he.eq_of_stores hg hname hstore)
  · rintro rfl
    obtain ⟨r, hr, rfl, key, i, j, -, hholds, -, -, hj, hslot, -⟩ := he
    obtain ⟨n, hn, hname⟩ := hg.selector r hr
    exact ⟨n, hname, (stores_iff_of_holds hholds).2 ⟨j, by simp, hj, hslot.trans hn⟩⟩

namespace Finished

section

variable (hfin : Finished cx s)

include hfin

/-- An instruction of a block is known by its position, for which a frame has a value. -/
theorem id_of_mem {k : Block} {i : Inst}
    (hk : s.mod.block? b = some k) (hv : v ∈ k.insts.toList) (hi : s.mod.inst? v = some i) :
    i.id = v ∧ (0 : Int) ≤ i.id ∧ i.id < (s.mod.insts.size : Int) := by
  obtain ⟨D, hg, -⟩ := hfin.good
  obtain ⟨before, after, heq⟩ := append_of_mem hv
  obtain ⟨j, hj, hsound⟩ := (hg.block hk).sound.inst heq
  obtain rfl := mem_unique hi hj
  obtain ⟨hpos, hlt⟩ := inst?_lt hi
  rw [hsound.id]
  exact ⟨rfl, hpos, hlt⟩

theorem lookup?_define {k : Block} {i : Inst} {f : Frame} (hsize : f.values.size = s.mod.insts.size)
    (hk : s.mod.block? b = some k) (hv : v ∈ k.insts.toList) (hi : s.mod.inst? v = some i) (x : Value) :
    lookup? (f.define i x).values i.id = some x := by
  obtain ⟨-, hpos, hlt⟩ := hfin.id_of_mem hk hv hi
  exact Frame.lookup?_define_self hpos (by rwa [hsize])

/-- A region has at most as many exits as there are blocks. -/
theorem exits_le {r : Region} (hr : r ∈ s.regions) : r.exits.length ≤ s.mod.blocks.size := by
  obtain ⟨D, hg, -⟩ := hfin.good
  have hnodup : (r.exits.map Int.toNat).Nodup := by
    refine Nodup.map_on (fun x hx y hy heq => ?_) (hg.exitsNodup r hr)
    obtain ⟨⟨kx, hkx, -⟩, -⟩ := hg.exits r hr x hx
    obtain ⟨⟨ky, hky, -⟩, -⟩ := hg.exits r hr y hy
    have hx0 : (0 : Int) ≤ x := (block?_lt hkx).1
    have hy0 : (0 : Int) ≤ y := (block?_lt hky).1
    omega
  have hsub : r.exits.map Int.toNat ⊆ range s.mod.blocks.size := by
    intro n hn
    obtain ⟨x, hx, rfl⟩ := mem_map.1 hn
    obtain ⟨⟨kx, hkx, -⟩, -⟩ := hg.exits r hr x hx
    have hlt : (0 : Int) ≤ x ∧ x < (s.mod.blocks.size : Int) := block?_lt hkx
    rw [mem_range]
    omega
  simpa using (hnodup.subperm hsub).length_le

/-- An end of a region is known as such, and it has the cases of the region. -/
theorem mem_ends (he : s.mod.EndsRegion h b) :
    ∃ r ∈ s.regions, r.handler = h ∧ ∃ k v i, s.mod.block? b = some k ∧ k.term = .switch v noBlock r.cases ∧
      k.insts.back? = some v ∧ s.mod.inst? v = some i ∧ i.op = .loadSlot ∧ i.slot = r.selector := by
  obtain ⟨D, hg, -⟩ := hfin.good
  obtain ⟨k, v, cs, i, n, hk, ht, hi, hop, hslot, hname⟩ := he
  obtain ⟨r, hr, hend⟩ := (hg.ending hk ht).resolve_left (by simp)
  obtain ⟨k', hk', hterm⟩ := hfin.ended r hr _ hend
  obtain ⟨k0, i0, -, hk0, hback, hi0, -, hsel, -⟩ := hg.ends r hr _ hend
  obtain rfl := mem_unique hk hk'
  obtain rfl := mem_unique hk hk0
  obtain rfl := mem_unique hi hi0
  obtain ⟨n', hn', hname'⟩ := hg.selector r hr
  obtain ⟨-, heq⟩ := Slot.mk.inj (hslot.symm.trans (hsel.trans hn'))
  obtain rfl := Int.ofNat.inj heq
  exact ⟨r, hr, selectorName_injective (mem_unique hname' hname), k, v, i, hk, hterm, hback, hi, hop, hsel⟩

/-- The code of a block that ends a region does not enter a region. -/
theorem not_stores_of_ends {k : Block} {cs : List SwitchCase}
    (hk : s.mod.block? b = some k) (ht : k.term = .switch v noBlock cs) (h' : Int) : ¬ s.mod.EntersRegion h' b := by
  obtain ⟨D, hg, -⟩ := hfin.good
  rintro ⟨n, hn, k', w, j, hk', hw, hj, hop, hslot⟩
  obtain rfl := mem_unique hk hk'
  cases (hg.block hk).store hw hj hop (by rw [hslot]) with
  | selector hs hn' hkind he =>
    rcases he with hnone | ⟨next, r, hr, -, key, i1, i2, -, ⟨k'', hk'', -, hgoto, -⟩, -⟩
    · rw [ht] at hnone
      cases hnone
    · obtain rfl := mem_unique hk hk''
      rw [ht] at hgoto
      cases hgoto
  | caught hs hn' =>
    obtain ⟨-, heq⟩ := Slot.mk.inj (hslot.symm.trans hs)
    obtain rfl := Int.ofNat.inj heq
    have hname := mem_unique hn hn'
    have hhead := congrArg head? hname
    rw [head?_selectorName, head?_caughtName] at hhead
    exact absurd hhead (by decide)
  | other hs hn' hsel =>
    obtain ⟨-, heq⟩ := Slot.mk.inj (hslot.symm.trans hs)
    obtain rfl := Int.ofNat.inj heq
    exact hsel h' (mem_unique hn' hn)

/-- **The end of a region goes on where the selector says.** -/
theorem goes_on (hsize : s.mod.blocks.size ≤ 2 ^ 31) (he : s.mod.EndsRegion h c.block)
    (hsel : Selects s c.frame h next) (hs : Step call s.mod c c') : c'.block = next := by
  obtain ⟨D, hg, -⟩ := hfin.good
  obtain ⟨r, hr, rfl, k, v, i, hk, ht, hback, hi, hop, hslot⟩ := hfin.mem_ends he
  obtain ⟨r', hr', hh, key, w, hexit, hread, hw⟩ := hsel
  obtain rfl := hg.toGoodRegions.unique hr' hr hh
  obtain ⟨hx, hterm, -⟩ := hs.completes hk (by rw [ht]; rfl)
  -- the last instruction loads the selector, which the code before it leaves alone
  obtain ⟨ids, hids⟩ : ∃ ids, k.insts.toList = ids ++ [v] := getLast?_eq_some_iff.1 (by rwa [Array.getLast?_toList])
  rw [hids] at hx
  obtain ⟨f, s1, hx1, hx2⟩ := executes_append.1 hx
  obtain ⟨i', hi', hload⟩ := executes_singleton.1 hx2
  obtain rfl := mem_unique hi hi'
  have hf : f.read? r'.selector = some w := by
    rw [← hread]
    refine hx1.read? fun u hu j hj hstore hsl => ?_
    obtain ⟨n, hn, hname⟩ := hg.selector r' hr
    refine hfin.not_stores_of_ends hk ht r'.handler ⟨n, hname, k, u, j, hk, Array.mem_toList_iff.1 ?_, hj, hstore, hsl.trans hn⟩
    rw [hids]
    exact mem_append_left _ hu
  rw [exec_loadSlot call s.mod f hop, hslot, hf] at hload
  have hframe : f.define i w = c'.frame := Except.ok.inj (Prod.mk.inj hload).1
  obtain ⟨j, hj, hsound⟩ := (hg.block hk).sound.inst hids
  obtain rfl := mem_unique hi hj
  obtain ⟨-, -, x, hval, hcase⟩ := execTerm_switch ht hterm
  rw [← hframe, ← hsound.id] at hval
  obtain rfl := Frame.eq_of_lookup?_define hval
  -- the key is the position of the exit
  have hkey : key < 2 ^ 31 := (List.getElem?_eq_some_iff.1 hexit).1.trans_le ((hfin.exits_le hr).trans hsize)
  rw [toInt_int32_ofNat hw hkey, Region.find?_cases, hexit] at hcase
  exact hcase

/-- What a selector says stays so along blocks that do not enter the region. -/
theorem selects_of_path {P : BlockId → Prop}
    (hP : ∀ b, P b → ¬ s.mod.EntersRegion h b) (hpath : Path call s.mod P c c') (hsel : Selects s c.frame h next) :
    Selects s c'.frame h next := by
  obtain ⟨D, hg, -⟩ := hfin.good
  obtain ⟨r, hr, rfl, key, v, hexit, hread, hv⟩ := hsel
  obtain ⟨n, hn, hname⟩ := hg.selector r hr
  refine ⟨r, hr, rfl, key, v, hexit, ?_, hv⟩
  rw [hpath.read? fun b hb hstore => hP b hb ⟨n, hname, hn ▸ hstore⟩]
  exact hread

/-- **Cleanup code that ends goes on where the block that entered it selected.** -/
theorem excursion (hsize : s.mod.blocks.size ≤ 2 ^ 31)
    (he : Enters cx s kind c.block h next) {P : BlockId → Prop} (hP : ∀ b, P b → ¬ s.mod.EntersRegion h b)
    (hx : Excursion call s.mod P h c c') : c'.block = next := by
  obtain ⟨c1, e, hin, hpath, hend, hout⟩ := hx
  obtain ⟨-, hsel⟩ := he.selects hin
  have hsel' := hfin.selects_of_path hP hpath hsel
  exact hfin.goes_on hsize hend hsel' hout

end

end Finished

end Lift

end Bytelift
