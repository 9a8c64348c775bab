import Bytelift.Lift.Alloc
import Bytelift.Lift.Landingpad
import Bytelift.Proofs.Text.Lines

/-!
# The names of temporaries and blocks

A temporary is found by its name, so different temporaries need different names. A lifting names four
kinds of them: the selector of a region, the exception caught at a bci, the return value, and the
temporaries of multi-dimensional arrays. The first byte tells the kinds apart, and within a kind the
decimal number does.

The label of a block consists of a bci and a suffix, which an underscore sets apart from the bci. A block
that routes an exit through regions is found by their handlers and the exit, which have a text as well.

Results: `selectorName_injective`, `caughtName_injective`, the inequalities between the kinds,
`bciLabel_injective` and `leaveKey_injective`.
-/

namespace Bytelift

open List Text

namespace Lift

theorem selectorName_injective {h h' : Int} (he : selectorName h = selectorName h') : h = h' :=
  ofInt_injective (append_cancel_left (append_cancel_right he))

theorem caughtName_injective {b b' : Int} (he : caughtName b = caughtName b') : b = b' :=
  ofInt_injective (append_cancel_left he)

theorem head?_selectorName (h : Int) : (selectorName h).head? = some 102 := rfl

theorem head?_caughtName (b : Int) : (caughtName b).head? = some 101 := rfl

theorem head?_resultName : Context.resultName.head? = some 114 := rfl

theorem head?_levelTemp (bci : Int) (n : Nat) (part : Text) :
    (Context.levelTemp bci n part).head? = some 109 := rfl

theorem bciLabel_injective {bci bci' : Int} {t t' : Text} (ht : ∀ x ∈ t.head?, x = byte '_')
    (ht' : ∀ x ∈ t'.head?, x = byte '_') (h : bciLabel bci t = bciLabel bci' t') : bci = bci' ∧ t = t' := by
  unfold bciLabel at h
  rw [append_assoc, append_assoc] at h
  obtain ⟨hn, ht⟩ := append_inj_of_head (notMem_ofInt rfl (by decide) bci) (notMem_ofInt rfl (by decide) bci')
    ht ht' (append_cancel_left h)
  exact ⟨ofInt_injective hn, ht⟩

/-- The number of an exit. A return has one that is no bci. -/
def Exit.number : Exit → Int
  | .jump bci => bci
  | .ret => -1

/-- The text that a block is filed under that routes an exit through the regions of the handlers. -/
def leaveKey (handlers : List Int) (exit : Exit) : Text :=
  join [byte ','] (handlers.map ofInt) ++ byte '>' :: ofInt exit.number

theorem Exit.number_injective {e e' : Exit} (he : e ≠ .jump (-1)) (he' : e' ≠ .jump (-1))
    (h : e.number = e'.number) : e = e' := by
  cases e <;> cases e' <;> simp_all [number]

/-- **The text tells the handlers and the exit.** -/
theorem leaveKey_injective {hs hs' : List Int} {e e' : Exit} (he : e ≠ .jump (-1)) (he' : e' ≠ .jump (-1))
    (h : leaveKey hs e = leaveKey hs' e') : hs = hs' ∧ e = e' := by
  have hmark (hs : List Int) : byte '>' ∉ join [byte ','] (hs.map ofInt) :=
    notMem_join (by decide) (forall_mem_map.2 fun n _ => notMem_ofInt rfl (by decide) n)
  have hparts (hs : List Int) : ∀ t ∈ hs.map ofInt, t ≠ [] ∧ byte ',' ∉ t :=
    forall_mem_map.2 fun n _ => ⟨ofInt_ne_nil n, notMem_ofInt rfl (by decide) n⟩
  obtain ⟨hjoin, hnumber⟩ := eq_of_append_cons (hmark hs) (hmark hs') h
  refine ⟨?_, Exit.number_injective he he' (ofInt_injective hnumber)⟩
  exact map_injective_iff.2 (fun _ _ => ofInt_injective) (join_injective (hparts hs) (hparts hs') hjoin)

end Lift
end Bytelift
