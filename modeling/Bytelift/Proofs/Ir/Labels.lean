import Bytelift.Proofs.Ir.Listing
import Bytelift.Proofs.Ir.Verification
import Mathlib.Data.List.Induction

/-!
# Labels of blocks

A builder puts a number behind a label that was asked for before. The numbered label may have been asked for itself, and
then two blocks have it. Labels are the same in no other way.

Results:
* `labels_identify_iff`: **labels identify the blocks of a builder just if no label that was asked for is the numbered form
  of another one.**
-/

namespace Bytelift

open List

namespace Ir

/-! ## Numbered labels -/

/-- A label with the number of times that it was asked for before. -/
def numbered (n : Nat) (label : Text) : Text :=
  match n with
  | 0 => label
  | n => label ++ "." ++ Text.ofNat n

theorem numbered_eq (n : Nat) (label : Text) :
    numbered n label = label ++ (if n = 0 then [] else 46 :: Text.ofNat n) := by
  cases n with
  | zero => exact (append_nil label).symm
  | succ n => simp only [numbered, append_assoc]; rfl

/-- The labels that were asked for, the latest first, with the number of times that each was asked for before. -/
def counted : List Text → List (Text × Nat)
  | [] => []
  | l :: ls => (l, ls.count l) :: counted ls

/-- The labels that a builder gives to what it was asked for. -/
abbrev given (ls : List Text) : List Text := (counted ls).map fun p => numbered p.2 p.1

/-- No label that was asked for is the numbered form of one that was asked for again. -/
def Unmixed (ls : List Text) : Prop :=
  ∀ l ∈ ls, ∀ n < ls.count l, 0 < n → l ++ "." ++ Text.ofNat n ∉ ls

variable {ls : List Text} {l l' : Text} {n n' : Nat}

theorem mem_counted : (l, n) ∈ counted ls ↔ n < ls.count l := by
  induction ls with
  | nil => simp [counted]
  | cons l' ls ih =>
    rw [counted, mem_cons, ih, count_cons]
    by_cases heq : l' = l
    · subst heq
      simp only [Prod.mk.injEq, true_and, beq_self_eq_true, if_true]
      omega
    · simp [heq, Ne.symm heq]

theorem nodup_counted (ls : List Text) : (counted ls).Nodup := by
  induction ls with
  | nil => exact nodup_nil
  | cons l ls ih => exact nodup_cons.2 ⟨fun h => Nat.lt_irrefl _ (mem_counted.1 h), ih⟩

theorem numbered_pos (hn : 0 < n) : numbered n l = l ++ 46 :: Text.ofNat n := by
  rw [numbered_eq, if_neg hn.ne']

/-- A number behind a label is known, and so is the label. -/
theorem numbered_inj (hn : 0 < n) (hn' : 0 < n') (h : numbered n l = numbered n' l') : l = l' ∧ n = n' := by
  rw [numbered_pos hn, numbered_pos hn'] at h
  have hdot (n : Nat) : 46 ∉ (Text.ofNat n).reverse := fun hm => Text.notMem_ofNat rfl n (mem_reverse.1 hm)
  -- read from the end, the number stops at the first dot
  have hrev := congrArg reverse h
  simp only [reverse_append, reverse_cons, append_assoc, singleton_append] at hrev
  obtain ⟨hnum, hlabel⟩ := Text.eq_of_append_cons (hdot n) (hdot n') hrev
  exact ⟨reverse_injective hlabel, Text.ofNat_injective (reverse_injective hnum)⟩

/-- **Numbered labels are distinct just if none was asked for itself.** -/
theorem nodup_given_iff (ls : List Text) : (given ls).Nodup ↔ Unmixed ls := by
  rw [nodup_map_iff_inj_on (nodup_counted ls)]
  constructor
  · intro hinj l hl n hn hpos hmem
    have heq := hinj (l, n) (mem_counted.2 hn) (l ++ "." ++ Text.ofNat n, 0) (mem_counted.2 (count_pos_iff.2 hmem))
    obtain ⟨-, rfl⟩ := Prod.mk.inj (heq (by cases n with | zero => cases hpos | succ n => rfl))
    exact Nat.lt_irrefl 0 hpos
  rintro hun ⟨l, n⟩ hmem ⟨l', n'⟩ hmem' (heq : numbered n l = numbered n' l')
  rw [mem_counted] at hmem hmem'
  -- a label with a number is none that was asked for
  have hplain {l l' : Text} {n : Nat} (hn : n < ls.count l) (hl' : 0 < ls.count l') (heq : numbered n l = l') : n = 0 := by
    cases n with
    | zero => rfl
    | succ n => exact absurd (count_pos_iff.1 hl') (heq ▸ hun l (count_pos_iff.1 (Nat.zero_lt_of_lt hn)) (n + 1) hn n.succ_pos)
  rcases n.eq_zero_or_pos with rfl | hn
  · obtain rfl := hplain hmem' hmem heq.symm
    exact congrArg (·, 0) heq
  rcases n'.eq_zero_or_pos with rfl | hn'
  · exact absurd (hplain hmem hmem' heq) hn.ne'
  obtain ⟨rfl, rfl⟩ := numbered_inj hn hn' heq
  rfl

/-! ## Calls of a builder -/

namespace Builder

/-- The labels of the blocks, the latest first. -/
def labels (b : Builder) : List Text := (b.mod.blocks.toList.map (·.label)).reverse

theorem labels_newBlock (b : Builder) (label : Text) (bci : Int) (kind : BlockKind) :
    (b.newBlock label bci kind).2.labels = b.freshLabel label :: b.labels := by
  change ((b.mod.blocks.push (b.blankBlock label bci kind)).toList.map (·.label)).reverse = _
  rw [Array.toList_push, map_append, reverse_append]
  rfl

theorem labels_temp (b : Builder) (name : Text) : (b.temp name).2.labels = b.labels := by
  unfold temp
  split <;> rfl

theorem labels_modifyBlock (b : Builder) (blk : BlockId) {f : Block → Block} (hf : ∀ k, (f k).label = k.label) :
    labels { b with mod := b.mod.modifyBlock blk f } = b.labels := by
  refine congrArg reverse ?_
  unfold Module.modifyBlock
  split
  · refine ext_getElem? fun n => ?_
    simp only [getElem?_map, Array.getElem?_toList, Array.getElem?_modify]
    split
    · rw [Option.map_map, show Block.label ∘ f = Block.label from funext hf]
    · rfl
  · rfl

theorem labels_emit (b : Builder) (blk : BlockId) (i : Inst) : (b.emit blk i).2.labels = b.labels :=
  labels_modifyBlock { b with mod := _ } blk fun _ => rfl

end Builder

/-- A call of a builder. -/
inductive Builder.Call
  | newBlock (label : Text) (bci : Int) (kind : BlockKind)
  | temp (name : Text)
  | emit (b : BlockId) (i : Inst)
  | setTerm (b : BlockId) (t : Terminator)

namespace Builder.Call

def run (b : Builder) : Call → Builder
  | newBlock label bci kind => (b.newBlock label bci kind).2
  | temp name => (b.temp name).2
  | emit blk i => (b.emit blk i).2
  | setTerm blk t => b.setTerm blk t

/-- The label that a call asks for. -/
def label? : Call → Option Text
  | newBlock label _ _ => some label
  | _ => none

theorem made_calls (method : Text) (calls : List Call) : (calls.foldl run (.new method)).Made := by
  induction calls using reverseRecOn with
  | nil => exact .new method
  | append_singleton calls c ih =>
    rw [foldl_concat]
    cases c with
    | newBlock label bci kind => exact .newBlock label bci kind ih
    | temp name => exact .temp name ih
    | emit blk i => exact .emit blk i ih
    | setTerm blk t => exact .setTerm blk t ih

/-- **The labels after any calls** are numbered as they were asked for, which the builder remembers. -/
theorem labels_calls (method : Text) (calls : List Call) :
    (calls.foldl run (.new method)).requested = (calls.filterMap label?).reverse ∧
      (calls.foldl run (.new method)).labels = given (calls.foldl run (.new method)).requested := by
  induction calls using reverseRecOn with
  | nil => exact ⟨rfl, rfl⟩
  | append_singleton calls c ih =>
    obtain ⟨hreq, hlabels⟩ := ih
    rw [foldl_concat, filterMap_append, reverse_append, ← hreq]
    cases c with
    | newBlock label bci kind => exact ⟨rfl, (labels_newBlock ..).trans (congrArg _ hlabels)⟩
    | temp name =>
      obtain ⟨n, -, -, -, -, -, hsame⟩ := temp_spec (calls.foldl run (.new method)) name
      exact ⟨hsame, (labels_temp ..).trans (hlabels.trans (congrArg given hsame.symm))⟩
    | emit blk i => exact ⟨rfl, (labels_emit ..).trans hlabels⟩
    | setTerm blk t => exact ⟨rfl, (labels_modifyBlock _ blk (f := fun k => { k with term := t }) fun _ => rfl).trans hlabels⟩

end Builder.Call

namespace Module

variable {m : Module}

theorem nodup_map_blocks {β : Type} {f : Block → β}
    (h : ∀ {b b' k k'}, m.block? b = some k → m.block? b' = some k' → f k = f k' → b = b') :
    (m.blocks.toList.map f).Nodup := by
  refine nodup_iff_getElem?_ne_getElem?.2 fun i j hij hj heq => ?_
  have hblock (n : Nat) : m.blocks.toList[n]? = m.block? n := Array.getElem?_toList.trans (lookup?_ofNat _ n).symm
  rw [getElem?_map, getElem?_map, hblock, hblock] at heq
  obtain ⟨k', hk'⟩ : ∃ k', m.block? j = some k' :=
    ⟨_, (hblock j).symm.trans (getElem?_eq_getElem (by simpa using hj))⟩
  rw [hk'] at heq
  obtain ⟨k, hk, heq⟩ := Option.map_eq_some_iff.1 heq
  exact hij.ne (Int.ofNat_inj.1 (h hk hk' heq))

theorem eq_of_label (h : (m.blocks.toList.map (·.label)).Nodup) {b b' : BlockId} {k k' : Block} (hk : m.block? b = some k)
    (hk' : m.block? b' = some k') (heq : k.label = k'.label) : b = b' := by
  obtain ⟨n, rfl, hn⟩ := lookup?_eq_some_iff.1 hk
  obtain ⟨n', rfl, hn'⟩ := lookup?_eq_some_iff.1 hk'
  rw [← Array.getElem?_toList] at hn hn'
  refine congrArg Nat.cast ((getElem?_inj ?_ h).1 ?_)
  · simpa using (List.getElem?_eq_some_iff.1 hn).1
  · rw [getElem?_map, getElem?_map, hn, hn', Option.map_some, Option.map_some, heq]

/-- Labels are distinct just if every block is found by its label. -/
theorem nodup_labels_iff (hn : m.Numbered) : (m.blocks.toList.map (·.label)).Nodup ↔
    ∀ k ∈ m.blocks.toList, m.blockByLabel? k.label = some k := by
  have hfind (label : Text) : m.blockByLabel? label = m.blocks.toList.find? fun k => k.label == label :=
    (Array.find?_toList ..).symm
  have hids : m.blocks.toList.Nodup :=
    .of_map (·.id) (nodup_map_blocks fun hk hk' heq => (hn.block hk).symm.trans (heq.trans (hn.block hk')))
  rw [nodup_map_iff_inj_on hids]
  constructor
  · intro hinj k hk
    rw [hfind]
    cases hf : m.blocks.toList.find? fun k' => k'.label == k.label with
    | none => exact absurd (find?_eq_none.1 hf k hk) (by simp)
    | some k' =>
      have heq := find?_some hf
      rw [hinj k' (mem_of_find?_eq_some hf) k hk (eq_of_beq heq)]
  · intro hall k hk k' hk' heq
    have hsame := hall k hk
    rw [heq, hall k' hk'] at hsame
    exact (Option.some.inj hsame).symm

theorem lookup_addShape? {T T' : Topology} {k : Block} (h : m.addShape? T k = some T') (label : Text) :
    T'.unwind.lookup label =
      if label = k.label ∧ k.term.unwind ≠ noBlock then (m.block? k.term.unwind).map (·.label)
      else T.unwind.lookup label := by
  obtain ⟨pads, h⟩ : ∃ pads, (if k.term.unwind = noBlock then some { T with pads := pads }
      else do
        let pad ← m.block? k.term.unwind
        return ⟨pads, assign k.label pad.label T.unwind⟩) = some T' := by
    unfold addShape? at h
    cases hd : k.pad with
    | none =>
      rw [hd] at h
      exact ⟨_, h⟩
    | some d =>
      rw [hd] at h
      obtain ⟨shape, -, h⟩ := Option.bind_eq_some_iff.1 h
      exact ⟨_, h⟩
  split at h
  · rename_i hu
    cases h
    simp [hu]
  rename_i hu
  obtain ⟨pad, hpad, h⟩ := Option.bind_eq_some_iff.1 h
  cases h
  rw [lookup_assign, hpad]
  simp [hu]

/-- The unwind edge of a block is found by its label if labels are distinct. -/
theorem lookup_unwind {T T' : Topology} {l : List Block} (hl : (l.map (·.label)).Nodup)
    (h : l.foldlM m.addShape? T = some T') :
    (∀ label ∉ l.map (·.label), T'.unwind.lookup label = T.unwind.lookup label) ∧
    ∀ k ∈ l, T.unwind.lookup k.label = none → T'.unwind.lookup k.label = (m.block? k.term.unwind).map (·.label) := by
  induction l generalizing T with
  | nil =>
    cases h
    simp
  | cons k l ih =>
    obtain ⟨T1, hT1, h⟩ := Option.bind_eq_some_iff.1 h
    obtain ⟨hk, hl⟩ := nodup_cons.1 hl
    obtain ⟨hother, hmem⟩ := ih hl h
    refine ⟨fun label hlabel => ?_, forall_mem_cons.2 ⟨fun hnone => ?_, fun k' hk' hnone => hmem k' hk' ?_⟩⟩
    · obtain ⟨hne, hlabel⟩ := not_or.1 (mt mem_cons.2 hlabel)
      rw [hother label hlabel, lookup_addShape? hT1, if_neg fun heq => hne heq.1]
    · rw [hother _ hk, lookup_addShape? hT1]
      split
      · rfl
      · rename_i hu
        rw [hnone, show k.term.unwind = noBlock by simpa using hu]
        rfl
    · rw [lookup_addShape? hT1, if_neg ?_, hnone]
      exact fun heq => hk (mem_map.2 ⟨k', hk', heq.1⟩)

end Module

end Ir

open Ir

/-- **Labels identify the blocks of a builder just if no label that was asked for is the numbered form of another one.** -/
theorem labels_identify_iff (method : Text) (calls : List Builder.Call) :
    let asked := calls.filterMap Builder.Call.label?
    let m := (calls.foldl Builder.Call.run (.new method)).mod
    ((m.blocks.toList.map (·.label)).Nodup ↔ Unmixed asked) ∧
    ((∀ k ∈ m.blocks.toList, m.blockByLabel? k.label = some k) ↔ Unmixed asked) ∧
    (Unmixed asked → ∀ T, m.topology? = some T → ∀ k ∈ m.blocks.toList,
      T.unwind.lookup k.label = (m.block? k.term.unwind).map (·.label)) := by
  intro asked m
  have hn : m.Numbered := (Builder.Call.made_calls method calls).numbered
  have hnodup : (m.blocks.toList.map (·.label)).Nodup ↔ Unmixed asked := by
    obtain ⟨hreq, hlabels⟩ := Builder.Call.labels_calls method calls
    rw [← nodup_reverse]
    change (Builder.labels _).Nodup ↔ _
    rw [hlabels, nodup_given_iff, hreq]
    simp only [Unmixed, mem_reverse, count_reverse]
    rfl
  refine ⟨hnodup, (Module.nodup_labels_iff hn).symm.trans hnodup, fun hun T hT k hk => ?_⟩
  exact (Module.lookup_unwind (hnodup.2 hun) hT).2 k hk rfl

/-- The third block is asked for with the label that the second one has got. -/
theorem labels_repeat : ¬ ((([.newBlock "a" 0 .code, .newBlock "a" 0 .code, .newBlock "a.1" 0 .code] : List Builder.Call).foldl
    Builder.Call.run (.new "T.f:()V")).mod.blocks.toList.map (·.label)).Nodup := by
  decide

end Bytelift
