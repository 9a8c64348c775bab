import Bytelift.Proofs.Flow.Starts

/-!
# Code without a partition

A partition is refused for one of the flaws that are listed here by rules (`Flawed`), and for no other reason. The rules speak of the
code as a whole, while the loop that makes the blocks looks for code behind each of them: since blocks follow each other, only the last
one can run off the code.

Result: `Partition.ofInstructions_rejects_iff`.
-/

namespace Bytelift.Partition

open List

variable {L : Nat} {table : HandlerTable} {insts : List Instruction}

/-- What is wrong with the instructions of code of the given length, or with its exception table. -/
inductive Flawed (L : Nat) (table : HandlerTable) (insts : List Instruction) : Prop
  | empty : L = 0 → Flawed L table insts
  | emptyRange {e} : e ∈ table → e.stop ≤ e.start → Flawed L table insts
  | rowStart {e} : e ∈ table → ¬ Boundary insts e.start → Flawed L table insts
  | rowStop {e} : e ∈ table → e.stop ≠ L → ¬ Boundary insts e.stop → Flawed L table insts
  | handler {e} : e ∈ table → ¬ Boundary insts e.handler → Flawed L table insts
  | both {e} : e ∈ table → e.isCleanup = true → e.catchType ≠ [] → Flawed L table insts
  | target {i t} : i ∈ insts → t ∈ i.targets → ¬ Boundary insts t → Flawed L table insts
  | fallsOff {i} : insts.getLast? = some i → i.op.endsBlock = false → Flawed L table insts

theorem rowFits_of_not_flawed (h : ¬ Flawed L table insts) {e : ExceptionEntry} (he : e ∈ table) : RowFits L insts e where
  range := by
    by_contra hno
    exact h (.emptyRange he (by omega))
  start := by
    by_contra hno
    exact h (.rowStart he hno)
  stop := by
    by_contra hno
    rw [not_or] at hno
    exact h (.rowStop he hno.1 hno.2)
  handler := by
    by_contra hno
    exact h (.handler he hno)
  plain hc := by
    by_contra hno
    exact h (.both he hc hno)

/-- Every block is linked if the last instruction of the code ends its block. -/
theorem exists_link {bs : List CodeBlock} {b : CodeBlock} (hcut : Cut L 0 0 bs insts)
    (hlen : ∀ i ∈ insts, 0 < i.len)
    (hlast : ∀ i, insts.getLast? = some i → i.op.endsBlock = true) (hb : b ∈ bs) :
    ∃ b', link L b = .ok b' := by
  obtain ⟨hne, pre, post, rfl, -, -, hmid, hpost⟩ := hcut.place hb
  obtain ⟨last, hl⟩ : ∃ last, b.insts.getLast? = some last := ⟨_, getLast?_eq_some_getLast hne⟩
  simp only [link, hl]
  by_cases hends : last.op.endsBlock = true
  · exact ⟨_, if_pos hends⟩
  rw [if_neg hends]
  -- an instruction follows, so the code does not end here
  obtain ⟨j, js, rfl⟩ : ∃ j js, post = j :: js := by
    refine exists_cons_of_ne_nil fun hnil => hends (hlast last ?_)
    rw [hnil, append_nil, getLast?_append, hl, Option.some_or]
  have hnext := (hpost.pairwise fun k hk => hlen k (mem_append_right _ hk)).2.2 j mem_cons_self
  have hpos : j.bci < j.next := Nat.lt_add_of_pos_right (hlen j (by simp))
  exact ⟨_, if_neg (by omega)⟩

/-- The last instruction of code that is cut into blocks ends its block. -/
theorem Cut.endsBlock {bs : List CodeBlock} {i : Instruction} (h : Cut L 0 0 bs insts)
    (hends : ∀ b ∈ bs, ∃ last, b.Ends L last) (hi : insts.getLast? = some i) :
    i.op.endsBlock = true := by
  have hne : bs ≠ [] := by
    rintro rfl
    rw [h.1] at hi
    cases hi
  obtain ⟨b, hb, hstop, hlen⟩ := h.finish hne
  have hmem := mem_of_getLast? hb
  obtain ⟨last, hlast⟩ := hends b hmem
  have hpos := h.getElem?_last hmem hlast
  rw [getLast?_eq_getElem?, show insts.length - 1 = b.last by omega, hpos] at hi
  cases hi
  by_contra hno
  have := hlast.inside i.next (by rw [hlast.fall, if_neg hno])
  exact absurd (hlast.stop.symm.trans hstop) (by omega)

/-- **A partition is refused exactly for the flaws of the code and of its exception table**, and then
the input is malformed. -/
theorem ofInstructions_rejects_iff {code : List UInt8} (hcode : Code.decode code = .ok insts) :
    ((∃ e, ofInstructions code.length table insts = .error e) ↔ Flawed code.length table insts) ∧
      ∀ e, ofInstructions code.length table insts = .error e → e.kind = .malformed := by
  obtain ⟨hspan, hproper⟩ := Code.decode_spans hcode
  refine ⟨⟨?_, fun hflawed => ?_⟩, fun e he => ?_⟩
  · rintro ⟨e, he⟩
    by_contra hno
    have hne : insts ≠ [] := by
      rintro rfl
      exact hno (.empty hspan.symm)
    have htargets : ∀ i ∈ insts, ∀ t ∈ i.targets, Boundary insts t := by
      intro i hi t ht
      by_contra hb
      exact hno (.target hi ht hb)
    have hrows : ∀ e ∈ table, RowFits code.length insts e := fun _ => rowFits_of_not_flawed hno
    obtain ⟨-, hcut⟩ := walk_leaders hcode hne hrows htargets
    obtain ⟨bs, hbs⟩ := exists_mapM_ok fun b hb =>
      exists_link hcut (fun i hi => (hproper i hi).1) (fun i hi => by
        by_contra hends
        exact hno (.fallsOff hi (by simpa using hends))) hb
    have hok := (ofInstructions_eq_ok_iff (p := ⟨bs, insts, _⟩) hcode).2
      ⟨hne, hrows, htargets, rfl, rfl, hbs⟩
    cases he.symm.trans hok
  · cases hp : ofInstructions code.length table insts with
    | error e => exact ⟨e, rfl⟩
    | ok p =>
      obtain ⟨hne, hrows, htargets, -⟩ := (ofInstructions_eq_ok_iff hcode).1 hp
      exfalso
      cases hflawed with
      | empty hL =>
        obtain ⟨i, hi⟩ := exists_mem_of_ne_nil insts hne
        have := bci_lt hcode hi
        omega
      | emptyRange he hle =>
        have := (hrows _ he).range
        omega
      | rowStart he hno => exact hno (hrows _ he).start
      | rowStop he hend hno => exact hno ((hrows _ he).stop.resolve_left hend)
      | handler he hno => exact hno (hrows _ he).handler
      | both he hc htyped => exact htyped ((hrows _ he).plain hc)
      | target hi ht hno => exact hno (htargets _ hi _ ht)
      | fallsOff hi hends =>
        have hdiv := ofInstructions_divides hcode hp
        rw [hdiv.cut.endsBlock hdiv.ends hi] at hends
        cases hends
  · have hflaw := isFlaw_ofInstructions he
    unfold Bailout.kind
    cases hr : e.reason <;> first | rfl | (rw [hr] at hflaw; exact hflaw.elim)

/-- A branch to the end of the code, where no instruction starts. -/
def farBranch : List UInt8 := [0xa7, 0, 4, 0xb1]

theorem farBranch_rejected : ∃ insts e, Code.decode farBranch = .ok insts ∧ ofInstructions farBranch.length [] insts = .error e ∧
    Flawed farBranch.length [] insts ∧ e.kind = .malformed := by
  obtain ⟨insts, hcode⟩ : ∃ insts, Code.decode farBranch = .ok insts := ⟨_, rfl⟩
  obtain ⟨e, he⟩ : ∃ e, ofInstructions farBranch.length [] insts = .error e := by
    cases hcode
    exact ⟨_, rfl⟩
  have hrejects : (_ ↔ Flawed farBranch.length [] insts) ∧ _ := ofInstructions_rejects_iff hcode
  exact ⟨insts, e, hcode, he, hrejects.1.1 ⟨e, he⟩, hrejects.2 e he⟩

end Bytelift.Partition
