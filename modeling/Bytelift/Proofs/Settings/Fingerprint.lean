import Bytelift.Proofs.Lift.Temps

/-!
# Fingerprints

The fingerprint of valid settings gives back whatever a lifting depends on: its parts are separated by blanks, which
neither truth values nor numbers hold, and the mnemonics at its end by commas, which no mnemonic holds. The mnemonics are
sorted, so settings that list them in another order have the same fingerprint.

Results:
* `fingerprint_spec`: **two valid settings with one fingerprint agree on all that a lifting depends on.**
-/

namespace Bytelift

open List Text

namespace Settings

variable {s s' : Settings}

/-! ## Mnemonics -/

theorem mnemonic_plain : ∀ op ∈ Opcode.all, op.mnemonic ≠ [] ∧ byte ',' ∉ op.mnemonic := by
  decide +kernel

theorem allowed_plain (h : s.validate = .ok ()) : ∀ name ∈ s.allowed, name ≠ [] ∧ byte ',' ∉ name := by
  intro name hname
  have hfind : s.allowed.find? (fun name => (Opcode.ofMnemonic? name).isNone) = none := by
    unfold validate at h
    split at h
    · cases h
    split at h
    · cases h
    split at h
    · cases h
    split at h
    · cases h
    · assumption
  have hsome : (Opcode.ofMnemonic? name).isNone ≠ true := find?_eq_none.1 hfind name hname
  obtain ⟨op, hop⟩ := Option.ne_none_iff_exists'.1 fun hnone => hsome (Option.isNone_iff_eq_none.2 hnone)
  have hmem := mem_of_find?_eq_some hop
  obtain rfl : op.mnemonic = name := by simpa using find?_some hop
  exact mnemonic_plain op hmem

/-! ## Parts -/

theorem blank_notMem_ofBool (b : Bool) : byte ' ' ∉ ofBool b := by
  cases b <;> decide

theorem ofBool_injective {b b' : Bool} (h : ofBool b = ofBool b') : b = b' := by
  revert h
  cases b <;> cases b' <;> decide

/-- The fingerprint with the blanks between its parts brought out. -/
theorem fingerprint_eq (s : Settings) : s.fingerprint = ofString "dump=" ++ (ofBool s.dumpIr ++ byte ' ' ::
    (ofString "elide=" ++ (ofBool s.elideGuards ++ byte ' ' :: (ofString "nest=" ++
      (ofInt s.nesting ++ byte ' ' :: (ofString "allow=" ++
        join [byte ','] (s.allowed.mergeSort le))))))) := by
  simp only [fingerprint, flatten_cons, flatten_nil, append_nil]
  rfl

theorem allowed_perm (hs : s.validate = .ok ()) (hs' : s'.validate = .ok ())
    (h : join "," (s.allowed.mergeSort le) = join "," (s'.allowed.mergeSort le)) :
    s.allowed.Perm s'.allowed := by
  have plain {s : Settings} (hs : s.validate = .ok ()) :
      ∀ t ∈ s.allowed.mergeSort le, t ≠ [] ∧ byte ',' ∉ t := fun t ht =>
    allowed_plain hs t (mem_mergeSort.1 ht)
  have hallowed := join_injective (plain hs) (plain hs') h
  exact (mergeSort_perm s.allowed le).symm.trans (hallowed ▸ mergeSort_perm s'.allowed le)

/-- **Two valid settings with one fingerprint agree on all that a lifting depends on.** -/
theorem fingerprint_spec (hs : s.validate = .ok ()) (hs' : s'.validate = .ok ()) (h : s.fingerprint = s'.fingerprint) :
    s.dumpIr = s'.dumpIr ∧ s.elideGuards = s'.elideGuards ∧ s.nesting = s'.nesting ∧ s.allowed.Perm s'.allowed := by
  rw [fingerprint_eq, fingerprint_eq] at h
  obtain ⟨hdump, h⟩ := eq_of_append_cons (blank_notMem_ofBool _) (blank_notMem_ofBool _) (append_cancel_left h)
  obtain ⟨helide, h⟩ := eq_of_append_cons (blank_notMem_ofBool _) (blank_notMem_ofBool _) (append_cancel_left h)
  obtain ⟨hnest, h⟩ := eq_of_append_cons (notMem_ofInt rfl (by decide) _)
    (notMem_ofInt rfl (by decide) _) (append_cancel_left h)
  exact ⟨ofBool_injective hdump, ofBool_injective helide, ofInt_injective hnest,
    allowed_perm hs hs' (append_cancel_left h)⟩

end Settings

end Bytelift
