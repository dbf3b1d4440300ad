import Mathlib.Data.List.TakeDrop
import RoughCut.Command

/-!
Texts in small letters. No letter is a blank or punctuation in either case, so
a text can be put into small letters before or after a word is put into its
normal form, and before or after words are joined.
-/

namespace RoughCut

namespace Text

/-- A character without a small letter of its own stays as it is. The others
are the capital letters from `A` to `Z`. -/
theorem toLower_eq_or_capital (c : Char) :
    c.toLower = c ∨ ∃ i, i < 26 ∧ c = Char.ofNat (65 + i) := by
  by_cases hCapital : 65 ≤ c.toNat ∧ c.toNat ≤ 90
  · refine Or.inr ⟨c.toNat - 65, by omega, ?_⟩
    rw [Nat.add_sub_cancel' hCapital.1, Char.ofNat_toNat]
  · exact Or.inl (dif_neg hCapital)

theorem toLower_toLower (c : Char) : c.toLower.toLower = c.toLower := by
  have hLetters : ∀ i < 26,
      (Char.ofNat (65 + i)).toLower.toLower = (Char.ofNat (65 + i)).toLower := by
    decide
  rcases toLower_eq_or_capital c with hSame | ⟨i, hi, rfl⟩
  · rw [hSame, hSame]
  · exact hLetters i hi

/-- Only capital letters of ASCII have another small letter, and no letter is trimmed. -/
theorem isTrimming_toLower (c : Char) : isTrimming c.toLower = isTrimming c := by
  have hLetters : ∀ i < 26,
      isTrimming (Char.ofNat (65 + i)).toLower = isTrimming (Char.ofNat (65 + i)) := by
    decide +kernel
  rcases toLower_eq_or_capital c with hSame | ⟨i, hi, rfl⟩
  · rw [hSame]
  · exact hLetters i hi

@[simp]
theorem toList_lower (s : String) : (lower s).toList = s.toList.map Char.toLower :=
  String.toList_ofList

@[simp]
theorem lower_lower (s : String) : lower (lower s) = lower s := by
  rw [lower, toList_lower, List.map_map, lower]
  congr 2
  exact funext toLower_toLower

@[simp]
theorem lower_append (s t : String) : lower (s ++ t) = lower s ++ lower t := by
  rw [lower, String.toList_append, List.map_append, String.ofList_append]
  rfl

@[simp]
theorem isEmpty_lower (s : String) : (lower s).isEmpty = s.isEmpty := by
  rw [Bool.eq_iff_iff, String.isEmpty_iff, String.isEmpty_iff, ← String.toList_inj,
    ← String.toList_inj, toList_lower]
  exact List.map_eq_nil_iff

/-- Words are compared by their small letters, so the case of the first makes no
difference. -/
@[simp]
theorem sameLetters_lower (s t : String) : sameLetters (lower s) t = sameLetters s t := by
  rw [sameLetters, lower_lower, sameLetters]

/-- Where a map of characters keeps what is stripped, it can be put on before
or after stripping. -/
theorem strip_map {p : Char → Bool} {f : Char → Char} (h : ∀ c, p (f c) = p c) (s : List Char) :
    strip p (s.map f) = (strip p s).map f := by
  have hSame : p ∘ f = p := funext h
  rw [strip, List.dropWhile_map, hSame, ← List.map_reverse, List.dropWhile_map, hSame,
    ← List.map_reverse, strip]

/-- The normal form and small letters may be taken in either order. -/
theorem normalize_lower (s : String) : normalize (lower s) = lower (normalize s) := by
  rw [normalize, toList_lower, strip_map isTrimming_toLower, lower, normalize,
    String.toList_ofList]

end Text

/-- Words in small letters make the phrase in small letters, for the blanks between them
have no case. -/
theorem phrase_map_lower (words : List String) :
    phrase (words.map Text.lower) = Text.lower (phrase words) := by
  induction words with
  | nil => rfl
  | cons w ws ih =>
      cases ws with
      | nil => simp [phrase]
      | cons v vs =>
          have hSpace : Text.lower " " = " " := rfl
          simp only [phrase, List.map_cons, String.intercalate_cons_cons, Text.lower_append,
            hSpace] at ih ⊢
          rw [ih]

end RoughCut
