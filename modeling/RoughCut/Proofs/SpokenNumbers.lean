import RoughCut.Numeral
import RoughCut.Proofs.Text.Digits

/-!
Words that are read as numbers. A word of digits is read as the number that the
digits make, and every number that is read is positive, so the positive numbers
of thirty-two bits are read back from their decimal digits.
-/

namespace RoughCut.Numeral

variable {m : UInt32}

/-- A word of digits is the number that they stand for, unless that is zero or too great
for a word of thirty-two bits. -/
theorem ofWord?_digits {digits : String} (hDigits : ∀ d ∈ digits.toList, d.isDigit = true) :
    ofWord? digits = ofNat? (Nat.ofDigitChars 10 digits.toList 0) := by
  rw [ofWord?, Text.lower_digits hDigits, if_pos (List.all_eq_true.mpr hDigits), ofDigits?]

theorem pos_of_ofNat? {n : Nat} (h : ofNat? n = some m) : 1 ≤ m.toNat := by
  unfold ofNat? at h
  split at h
  · next hRange =>
    obtain ⟨hPos, hLimit⟩ := hRange
    cases h
    rwa [UInt32.toNat_ofNat_of_lt' hLimit]
  · cases h

/-- A number that is spoken is positive. -/
theorem pos_of_ofWord? {word : String} (h : ofWord? word = some m) : 1 ≤ m.toNat := by
  simp only [ofWord?] at h
  split at h
  · exact pos_of_ofNat? h
  · obtain ⟨n, -, hNumber⟩ := Option.bind_eq_some_iff.mp h
    exact pos_of_ofNat? hNumber

theorem ofNat?_toNat (h : 1 ≤ m.toNat) : ofNat? m.toNat = some m := by
  rw [ofNat?, if_pos ⟨h, m.toNat_lt⟩, UInt32.ofNat_toNat]

/-- A positive number is read back from its decimal digits. -/
theorem ofWord?_repr (h : 1 ≤ m.toNat) : ofWord? (Nat.repr m.toNat) = some m := by
  have hDigits : ∀ d ∈ (Nat.repr m.toNat).toList, d.isDigit = true := by
    rw [Nat.toList_repr]
    exact fun d => Nat.isDigit_of_mem_toDigits (by decide) (by decide)
  rw [ofWord?_digits hDigits, Nat.toList_repr, Nat.ofDigitChars_ten_toDigits, ofNat?_toNat h]

end RoughCut.Numeral
