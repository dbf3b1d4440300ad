import Mathlib.Data.List.Induction
import Mathlib.Data.List.TakeWhile
import Mathlib.Data.Nat.Digits.Defs
import RoughCut.Text.Punctuation

/-!
Words of digits. Digits are the same in small letters and nothing of them is blank or
punctuation, so a word of digits is its own normal form. What they are worth is given
by their places, whatever text they are part of.
-/

namespace RoughCut

/-- The digits are ten characters in a row, so a fact about each can be checked for
these ten. -/
theorem exists_ofNat_of_isDigit {d : Char} (h : d.isDigit = true) :
    ∃ i, i < 10 ∧ d = Char.ofNat (48 + i) := by
  have hRange : 48 ≤ d.toNat ∧ d.toNat ≤ 57 := by
    simp only [Char.isDigit, Bool.and_eq_true, decide_eq_true_eq] at h
    exact h
  refine ⟨d.toNat - 48, by omega, ?_⟩
  rw [Nat.add_sub_cancel' hRange.1, Char.ofNat_toNat]

namespace Text

theorem toLower_of_isDigit {d : Char} (h : d.isDigit = true) : d.toLower = d := by
  have hDigits : ∀ i < 10, (Char.ofNat (48 + i)).toLower = Char.ofNat (48 + i) := by
    decide
  obtain ⟨i, hi, rfl⟩ := exists_ofNat_of_isDigit h
  exact hDigits i hi

theorem isTrimming_of_isDigit {d : Char} (h : d.isDigit = true) : isTrimming d = false := by
  have hDigits : ∀ i < 10, isTrimming (Char.ofNat (48 + i)) = false := by
    decide
  obtain ⟨i, hi, rfl⟩ := exists_ofNat_of_isDigit h
  exact hDigits i hi

section Words

variable {digits : String} (hDigits : ∀ d ∈ digits.toList, d.isDigit = true)

include hDigits

theorem lower_digits : lower digits = digits := by
  have hSame : digits.toList.map Char.toLower = digits.toList :=
    (List.map_congr_left fun d hd => toLower_of_isDigit (hDigits d hd)).trans
      (List.map_id' _)
  rw [lower, hSame, String.ofList_toList]

theorem strip_digits : strip isTrimming digits.toList = digits.toList := by
  have hKeep {ds : List Char} (hAll : ∀ d ∈ ds, d.isDigit = true) :
      ds.dropWhile isTrimming = ds := by
    rw [List.dropWhile_eq_self_iff]
    intro hLength
    rw [isTrimming_of_isDigit (hAll _ (List.getElem_mem hLength))]
    exact Bool.false_ne_true
  rw [strip, hKeep hDigits, hKeep fun d hd => hDigits d (List.mem_reverse.mp hd),
    List.reverse_reverse]

/-- A minus is taken for punctuation around the word. -/
theorem normalize_minus_digits : normalize ("-" ++ digits) = digits := by
  have hMinus : isTrimming '-' = true := rfl
  have hText : ("-" ++ digits).toList = '-' :: digits.toList := String.toList_append
  rw [normalize, hText, strip, List.dropWhile_cons_of_pos hMinus, ← strip, strip_digits hDigits,
    String.ofList_toList]

end Words

/-- The number with these decimal digits, of which the last counts ones, the one
before it tens, and so on. -/
def decimalValue (digits : List Char) : Nat :=
  Nat.ofDigits 10 (digits.reverse.map fun d => d.toNat - '0'.toNat)

/-- Digits that are read from the left make the number that their places give them. -/
theorem ofDigitChars_eq_decimalValue (digits : List Char) :
    Nat.ofDigitChars 10 digits 0 = decimalValue digits := by
  induction digits using List.reverseRecOn with
  | nil => rfl
  | append_singleton front d ih =>
      rw [Nat.ofDigitChars_append, ih, Nat.ofDigitChars_cons, Nat.ofDigitChars_nil, decimalValue,
        decimalValue, List.reverse_concat, List.map_cons, Nat.ofDigits_cons, Nat.add_comm]

end Text

end RoughCut
