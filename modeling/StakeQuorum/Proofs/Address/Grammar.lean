import Mathlib.Data.List.Basic
import StakeQuorum.Address
import StakeQuorum.Proofs.Hex.Digits

/-! # The texts of addresses

Exactly the external addresses have an internal address, and exactly the texts of the grammar are
read as one, which is written as it was read. Two external addresses share an internal one only if
the first of the chained rounds already hashes them alike.
-/

namespace StakeQuorum.Address

variable {s s' t : Bytes} {a : Internal}

/-! ### Reading and writing -/

/-- What an internal address looks like. -/
def IsInternalText (t : Bytes) : Prop :=
  ∃ digits : Bytes, t = "dadbs" ++ digits ∧ digits.length = 64 ∧
    ∀ c ∈ digits, ('0'.toUInt8 ≤ c ∧ c ≤ '9'.toUInt8) ∨ ('a'.toUInt8 ≤ c ∧ c ≤ 'f'.toUInt8)

theorem isLowerDigits_iff : Hex.isLowerDigits s = true ↔
    ∀ c ∈ s, ('0'.toUInt8 ≤ c ∧ c ≤ '9'.toUInt8) ∨ ('a'.toUInt8 ≤ c ∧ c ≤ 'f'.toUInt8) := by
  simp only [Hex.isLowerDigits, Bytes.isDigit, List.all_eq_true, Bool.or_eq_true,
    Bool.and_eq_true, decide_eq_true_eq]

theorem isInternalText_text (a : Internal) : IsInternalText a.text :=
  ⟨a.digits, rfl, a.length_eq, isLowerDigits_iff.1 a.lower⟩

theorem IsInternalText.exists_text (h : IsInternalText t) : ∃ a : Internal, a.text = t := by
  obtain ⟨digits, rfl, hlength, hlower⟩ := h
  exact ⟨⟨digits, hlength, isLowerDigits_iff.2 hlower⟩, rfl⟩

theorem parse_text (a : Internal) : parse a.text = .ok a := by
  have htake : a.text.take mark.length = mark := List.take_left
  have hdrop : a.text.drop mark.length = a.digits := List.drop_left
  simp only [parse, htake, hdrop, ne_eq, not_true_eq_false, if_false, dif_pos a.length_eq,
    dif_pos a.lower]

theorem text_of_parse (h : parse t = .ok a) : a.text = t := by
  unfold parse at h
  split at h
  · cases h
  · rename_i hmark
    dsimp only at h
    split at h
    · split at h
      · cases h
        have hcut := List.take_append_drop mark.length t
        rwa [not_not.1 hmark] at hcut
      · cases h
    · cases h

theorem parse_eq_ok_iff : parse t = .ok a ↔ t = a.text :=
  ⟨fun h => (text_of_parse h).symm, fun h => h ▸ parse_text a⟩

theorem exists_parse_iff : (∃ a, parse t = .ok a) ↔ IsInternalText t := by
  constructor
  · rintro ⟨a, h⟩
    rw [parse_eq_ok_iff] at h
    exact h ▸ isInternalText_text a
  · intro h
    obtain ⟨a, rfl⟩ := h.exists_text
    exact ⟨a, parse_text a⟩

theorem parse?_eq_some_iff : parse? t = some a ↔ parse t = .ok a := by
  rw [parse?]
  cases parse t <;> simp [Except.toOption]

/-! ### Deriving -/

theorem derive_eq_ok_iff : derive s = .ok a ↔ isExternal s ∧ a.digits = chain 4 0 s := by
  unfold derive
  split
  · rename_i hlength
    have hnot : isExternal s = false := by
      rw [isExternal, beq_false_of_ne hlength, Bool.false_and]
    simp [hnot]
  · by_cases h : isExternal s <;> simp [h, Internal.ext_iff, eq_comm]

theorem exists_derive_iff : (∃ a, derive s = .ok a) ↔ isExternal s := by
  simp only [derive_eq_ok_iff, exists_and_left, and_iff_left_iff_imp]
  exact fun _ => ⟨⟨chain 4 0 s, by simp [digitCount], by simp⟩, rfl⟩

/-- The digits of the first round tell the hash, and all the other rounds depend on them only. -/
theorem chain_inj (rounds i : Nat) :
    chain (rounds + 1) i s = chain (rounds + 1) i s' ↔ djb2 s = djb2 s' := by
  constructor
  · intro h
    rw [chain, chain] at h
    exact Hex.word_inj.1 (List.append_inj_left h (by simp [Hex.word]))
  · intro h
    rw [chain, chain, h]

theorem derive_inj (h : isExternal s) (h' : isExternal s') :
    derive s = derive s' ↔ djb2 s = djb2 s' := by
  obtain ⟨a, ha⟩ := exists_derive_iff.2 h
  obtain ⟨a', ha'⟩ := exists_derive_iff.2 h'
  rw [← chain_inj 3 0, ← (derive_eq_ok_iff.1 ha).2, ← (derive_eq_ok_iff.1 ha').2, ha, ha',
    Except.ok.injEq, Internal.ext_iff]

/-- External addresses are exactly what has an internal address, and the texts of the grammar are
exactly what is read as one. Reading undoes writing, writing undoes reading, and two external
addresses share an internal one exactly if they share a hash. -/
theorem addresses_match_grammar :
    (∀ s, (∃ a, derive s = .ok a) ↔ isExternal s) ∧
      (∀ s a, derive s = .ok a → parse a.text = .ok a) ∧
      (∀ t, (∃ a, parse t = .ok a) ↔ IsInternalText t) ∧
      (∀ t a, parse? t = some a ↔ parse t = .ok a) ∧
      (∀ t a, parse t = .ok a → a.text = t) ∧
      ∀ s s', isExternal s → isExternal s' → (derive s = derive s' ↔ djb2 s = djb2 s') := by
  refine ⟨fun s => exists_derive_iff, fun s a _ => parse_text a, fun t => exists_parse_iff,
    fun t a => parse?_eq_some_iff, fun t a h => text_of_parse h, fun s s' h h' => ?_⟩
  exact derive_inj h h'

/-- Two identities share an internal address, which is read as it is written. -/
theorem addresses_match_grammar_shared :
    let s : Bytes := "Az" ++ List.replicate 42 'V'.toUInt8
    let s' : Bytes := "BY" ++ List.replicate 42 'V'.toUInt8
    s ≠ s' ∧ ∃ a, derive s = .ok a ∧ derive s' = .ok a ∧ parse a.text = .ok a ∧
      parse? a.text = some a := by
  intro s s'
  have hs : isExternal s = true := by decide
  have hs' : isExternal s' = true := by decide
  obtain ⟨hderived, hread, -, hoption, -, hshared⟩ := addresses_match_grammar
  obtain ⟨a, ha⟩ := (hderived s).2 hs
  have hsame := (hshared s s' hs hs').2 (by decide +kernel)
  have hparse := hread s a ha
  exact ⟨by decide, a, ha, hsame.symm.trans ha, hparse, (hoption _ a).2 hparse⟩

end StakeQuorum.Address
