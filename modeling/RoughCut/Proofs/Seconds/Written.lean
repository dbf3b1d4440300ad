import Mathlib.Data.List.Basic
import Mathlib.Data.List.TakeWhile
import RoughCut.Proofs.Text.Digits
import RoughCut.Seconds.Decimal

/-!
How decimals are written. The grammar has an optional sign, digits with at most one
point among or beside them, and an optional exponent; what is read as a decimal is
exactly what the grammar has, and it is read as the number that is written.
-/

namespace RoughCut.Decimal

variable {s text sign power whole fraction rest : List Char} {negative : Bool} {e : Int}
  {d : Decimal}

/-- Nothing but decimal digits. -/
def AreDigits (s : List Char) : Prop :=
  ∀ c ∈ s, c.isDigit = true

/-- A sign that may be left out, and whether it is that of a negative number. -/
inductive Sign : List Char → Bool → Prop where
  | none : Sign [] false
  | plus : Sign ['+'] false
  | minus : Sign ['-'] true

/-- Digits with or without a point, at least one digit on one of its sides, and the
digits before and after the point. -/
inductive Mantissa : List Char → List Char → List Char → Prop where
  | whole {whole : List Char} (hSome : whole ≠ []) (hDigits : AreDigits whole) :
      Mantissa whole whole []
  | pointed {whole fraction : List Char} (hSome : whole ++ fraction ≠ [])
      (hDigits : AreDigits (whole ++ fraction)) :
      Mantissa (whole ++ '.' :: fraction) whole fraction

/-- An exponent that may be left out, and its value. -/
inductive Power : List Char → Int → Prop where
  | none : Power [] 0
  | some {letter : Char} {sign digits : List Char} {negative : Bool}
      (hLetter : letter = 'e' ∨ letter = 'E') (hSign : Sign sign negative) (hSome : digits ≠ [])
      (hDigits : AreDigits digits) :
      Power (letter :: (sign ++ digits))
        (if negative then -(Text.decimalValue digits : Int) else Text.decimalValue digits)

/-- A text and the decimal that is written in it. -/
inductive Spelled : List Char → Decimal → Prop where
  | mk {sign text whole fraction power : List Char} {negative : Bool} {e : Int}
      (hSign : Sign sign negative) (hMantissa : Mantissa text whole fraction)
      (hPower : Power power e) :
      Spelled (sign ++ text ++ power)
        ⟨negative, Text.decimalValue (whole ++ fraction), e - fraction.length⟩

/-! What is read is in the grammar. -/

/-- What is taken off as a sign is one. -/
theorem sign_of_splitSign (h : splitSign s = (negative, rest)) :
    ∃ sign, s = sign ++ rest ∧ Sign sign negative := by
  unfold splitSign at h
  split at h
  · cases h
    exact ⟨_, rfl, .minus⟩
  · cases h
    exact ⟨_, rfl, .plus⟩
  · cases h
    exact ⟨_, rfl, .none⟩

theorem all_isDigit_iff : s.all Char.isDigit = true ↔ AreDigits s :=
  List.all_eq_true

/-- A sign is taken off what does not begin with another. The unsigned rest never does,
since it begins with a digit or a point. -/
theorem splitSign_append (hSign : Sign sign negative)
    (hRest : ∀ c ∈ rest.head?, c ≠ '-' ∧ c ≠ '+') :
    splitSign (sign ++ rest) = (negative, rest) := by
  cases hSign with
  | plus => rfl
  | minus => rfl
  | none =>
      rw [List.nil_append]
      unfold splitSign
      split
      · exact absurd rfl (hRest '-' rfl).1
      · exact absurd rfl (hRest '+' rfl).2
      · rfl

theorem no_sign_of_isDigit {c : Char} (h : c.isDigit = true) : c ≠ '-' ∧ c ≠ '+' := by
  constructor
  · rintro rfl
    cases h
  · rintro rfl
    cases h

theorem AreDigits.head (h : AreDigits s) : ∀ c ∈ s.head?, c.isDigit = true :=
  fun _ hMem => h _ (List.mem_of_mem_head? hMem)

/-- After its letter an exponent has an optional sign and digits, and their value. -/
theorem exponent?_letter {letter : Char} (hLetter : letter = 'e' ∨ letter = 'E')
    (h : splitSign s = (negative, rest)) :
    exponent? (letter :: s) =
      if rest ≠ [] ∧ rest.all Char.isDigit = true then
        some (if negative then -(Text.decimalValue rest : Int) else Text.decimalValue rest)
      else none := by
  rw [exponent?, if_pos hLetter, h, ← Text.ofDigitChars_eq_decimalValue]
  by_cases hDigits : rest ≠ [] ∧ rest.all Char.isDigit = true
  · rw [if_pos hDigits]
    exact if_neg fun hNone => hNone.elim hDigits.1 fun hOther => hOther hDigits.2
  · rw [if_neg hDigits]
    exact if_pos (by tauto)

/-- What is read as an exponent is one to the grammar, with the same value, and the
other way round. -/
theorem exponent?_eq_some_iff : exponent? s = some e ↔ Power s e := by
  constructor
  · intro h
    cases s with
    | nil =>
        cases h
        exact .none
    | cons letter s =>
        by_cases hLetter : letter = 'e' ∨ letter = 'E'
        · rcases hSplit : splitSign s with ⟨negative, rest⟩
          obtain ⟨sign, rfl, hSign⟩ := sign_of_splitSign hSplit
          rw [exponent?_letter hLetter hSplit] at h
          by_cases hDigits : rest ≠ [] ∧ rest.all Char.isDigit = true
          · rw [if_pos hDigits] at h
            obtain rfl := Option.some.inj h
            exact .some hLetter hSign hDigits.1 (all_isDigit_iff.mp hDigits.2)
          · rw [if_neg hDigits] at h
            cases h
        · rw [exponent?, if_neg hLetter] at h
          cases h
  · intro h
    cases h with
    | none => rfl
    | some hLetter hSign hSome hDigits =>
        have hSplit := splitSign_append hSign fun c hMem => no_sign_of_isDigit (hDigits.head c hMem)
        rw [exponent?_letter hLetter hSplit, if_pos ⟨hSome, all_isDigit_iff.mpr hDigits⟩]

/-- What may follow the digits of a decimal is told from them by its first character. -/
theorem Power.head (h : Power s e) : ∀ c ∈ s.head?, c.isDigit = false ∧ c ≠ '.' := by
  cases h with
  | none => simp
  | some hLetter =>
      intro c hMem
      obtain rfl := Option.some.inj hMem
      rcases hLetter with rfl | rfl <;> decide

/-- Digits end where another character follows. -/
theorem span_digits (hDigits : AreDigits s) (hRest : ∀ c ∈ rest.head?, c.isDigit = false) :
    (s ++ rest).takeWhile Char.isDigit = s ∧ (s ++ rest).dropWhile Char.isDigit = rest := by
  rw [List.takeWhile_append_of_pos hDigits, List.dropWhile_append_of_pos hDigits]
  cases rest with
  | nil => simp
  | cons c rest =>
      have hOther : ¬ c.isDigit = true := by simp [hRest c rfl]
      rw [List.takeWhile_cons_of_neg hOther, List.dropWhile_cons_of_neg hOther, List.append_nil]
      exact ⟨rfl, rfl⟩

/-- A number without its sign is read in three parts, of which the digits may be before
the point or behind it, but not missing. -/
theorem ofUnsigned?_eq (negative : Bool)
    (h : splitFraction (s.dropWhile Char.isDigit) = (fraction, rest)) :
    ofUnsigned? negative s =
      if s.takeWhile Char.isDigit ++ fraction ≠ [] then
        (exponent? rest).map fun e =>
          ⟨negative, Text.decimalValue (s.takeWhile Char.isDigit ++ fraction), e - fraction.length⟩
      else none := by
  rw [ofUnsigned?, h, ← Text.ofDigitChars_eq_decimalValue]
  by_cases hSome : s.takeWhile Char.isDigit ++ fraction ≠ []
  · rw [if_pos hSome]
    exact if_neg fun hNone => hSome (List.append_eq_nil_iff.mpr hNone)
  · rw [if_neg hSome]
    exact if_pos (List.append_eq_nil_iff.mp (not_not.mp hSome))

/-- What is cut off before the exponent is digits with at most one point. -/
theorem mantissa_of_splitFraction
    (h : splitFraction (s.dropWhile Char.isDigit) = (fraction, rest))
    (hSome : s.takeWhile Char.isDigit ++ fraction ≠ []) :
    ∃ text, s = text ++ rest ∧ Mantissa text (s.takeWhile Char.isDigit) fraction := by
  have hWhole : AreDigits (s.takeWhile Char.isDigit) := fun _ hMem => List.mem_takeWhile_imp hMem
  have hParts := List.takeWhile_append_dropWhile (p := Char.isDigit) (l := s)
  generalize s.takeWhile Char.isDigit = whole at *
  generalize s.dropWhile Char.isDigit = tail at *
  subst hParts
  unfold splitFraction at h
  split at h
  · next after =>
    cases h
    refine ⟨whole ++ '.' :: after.takeWhile Char.isDigit, ?_, .pointed hSome fun c hMem => ?_⟩
    · rw [List.append_assoc, List.cons_append, List.takeWhile_append_dropWhile]
    · rcases List.mem_append.mp hMem with hMem | hMem
      · exact hWhole c hMem
      · exact List.mem_takeWhile_imp hMem
  · cases h
    rw [List.append_nil] at hSome
    exact ⟨whole, rfl, .whole hSome hWhole⟩

/-- What is read as a number without a sign is one to the grammar, with the digits and
the exponent that the grammar tells. -/
theorem ofUnsigned?_eq_some_iff :
    ofUnsigned? negative s = some d ↔ ∃ text whole fraction power e, s = text ++ power ∧
      Mantissa text whole fraction ∧ Power power e ∧
        d = ⟨negative, Text.decimalValue (whole ++ fraction), e - fraction.length⟩ := by
  constructor
  · intro h
    rcases hSplit : splitFraction (s.dropWhile Char.isDigit) with ⟨fraction, rest⟩
    rw [ofUnsigned?_eq negative hSplit] at h
    split_ifs at h with hSome
    obtain ⟨e, hPower, rfl⟩ := Option.map_eq_some_iff.mp h
    obtain ⟨text, hParts, hMantissa⟩ := mantissa_of_splitFraction hSplit hSome
    exact ⟨text, _, fraction, rest, e, hParts, hMantissa, exponent?_eq_some_iff.mp hPower, rfl⟩
  · rintro ⟨text, whole, fraction, power, e, rfl, hMantissa, hPower, rfl⟩
    have hExponent := exponent?_eq_some_iff.mpr hPower
    have hHead : ∀ c ∈ power.head?, c.isDigit = false := fun c hMem => (hPower.head c hMem).1
    cases hMantissa with
    | whole hSome hDigits =>
        obtain ⟨hTake, hDrop⟩ := span_digits hDigits hHead
        have hSplit : splitFraction ((text ++ power).dropWhile Char.isDigit) = ([], power) := by
          rw [hDrop]
          unfold splitFraction
          split
          · exact absurd rfl (hPower.head '.' rfl).2
          · rfl
        rw [ofUnsigned?_eq negative hSplit, hTake, if_pos (by simpa using hSome), hExponent]
        rfl
    | pointed hSome hDigits =>
        have hWhole : AreDigits whole := fun c hMem => hDigits c (List.mem_append_left _ hMem)
        have hFraction : AreDigits fraction :=
          fun c hMem => hDigits c (List.mem_append_right _ hMem)
        have hPoint : ∀ c ∈ ('.' :: (fraction ++ power)).head?, c.isDigit = false := by
          rintro _ ⟨⟩
          rfl
        obtain ⟨hTake, hDrop⟩ := span_digits hWhole hPoint
        obtain ⟨hFirst, hLast⟩ := span_digits hFraction hHead
        have hSplit : splitFraction ((whole ++ '.' :: (fraction ++ power)).dropWhile Char.isDigit) =
            (fraction, power) := by
          rw [hDrop, splitFraction, hFirst, hLast]
        rw [List.append_assoc, List.cons_append, ofUnsigned?_eq negative hSplit, hTake,
          if_pos hSome, hExponent]
        rfl

/-- An unsigned decimal begins with a digit or its point. -/
theorem Mantissa.head (h : Mantissa text whole fraction) :
    text ≠ [] ∧ ∀ c ∈ text.head?, c ≠ '-' ∧ c ≠ '+' := by
  cases h with
  | whole hSome hDigits => exact ⟨hSome, fun c hMem => no_sign_of_isDigit (hDigits.head c hMem)⟩
  | pointed hSome hDigits =>
      refine ⟨by simp, fun c hMem => ?_⟩
      cases whole with
      | nil =>
          obtain rfl := Option.some.inj hMem
          decide
      | cons first whole =>
          obtain rfl := Option.some.inj hMem
          exact no_sign_of_isDigit (hDigits first (by simp))

/-- What is read as a decimal is what the grammar has. -/
theorem ofChars?_eq_some_iff : ofChars? s = some d ↔ Spelled s d := by
  constructor
  · intro h
    rcases hSplit : splitSign s with ⟨negative, rest⟩
    rw [ofChars?, hSplit] at h
    obtain ⟨sign, rfl, hSign⟩ := sign_of_splitSign hSplit
    obtain ⟨text, whole, fraction, power, e, rfl, hMantissa, hPower, rfl⟩ :=
      ofUnsigned?_eq_some_iff.mp h
    rw [← List.append_assoc]
    exact .mk hSign hMantissa hPower
  · intro h
    cases h with
    | @mk sign text whole fraction power negative e hSign hMantissa hPower =>
        have hSplit : splitSign (sign ++ (text ++ power)) = (negative, text ++ power) := by
          refine splitSign_append hSign fun c hMem => ?_
          rw [List.head?_append_of_ne_nil _ hMantissa.head.1] at hMem
          exact hMantissa.head.2 c hMem
        rw [List.append_assoc, ofChars?, hSplit]
        exact ofUnsigned?_eq_some_iff.mpr
          ⟨text, whole, fraction, power, e, rfl, hMantissa, hPower, rfl⟩

/-- A character that can be in the text of a decimal. -/
def isWritten (c : Char) : Bool :=
  c.isDigit || ['+', '-', '.', 'e', 'E'].contains c

/-- Digits are among the characters with which numbers are written. -/
theorem AreDigits.written (h : AreDigits s) : ∀ c ∈ s, isWritten c = true := by
  intro c hMem
  rw [isWritten, h c hMem, Bool.true_or]

theorem Sign.written (h : Sign s negative) : ∀ c ∈ s, isWritten c = true := by
  rw [← List.all_eq_true]
  cases h <;> rfl

theorem Mantissa.written (h : Mantissa text whole fraction) : ∀ c ∈ text, isWritten c = true := by
  cases h with
  | whole _ hDigits => exact hDigits.written
  | pointed _ hDigits =>
      intro c hMem
      rw [List.mem_append, List.mem_cons] at hMem
      rcases hMem with hMem | rfl | hMem
      · exact hDigits.written c (List.mem_append_left _ hMem)
      · rfl
      · exact hDigits.written c (List.mem_append_right _ hMem)

theorem Power.written (h : Power s e) : ∀ c ∈ s, isWritten c = true := by
  cases h with
  | none => simp
  | some hLetter hSign _ hDigits =>
      intro c hMem
      rw [List.mem_cons, List.mem_append] at hMem
      rcases hMem with rfl | hMem | hMem
      · rcases hLetter with rfl | rfl <;> rfl
      · exact hSign.written c hMem
      · exact hDigits.written c hMem

/-- Nothing else is in the text of a decimal, and it is not empty. So a text with any
other character can be refused without a reading. -/
theorem Spelled.written (h : Spelled s d) : s ≠ [] ∧ ∀ c ∈ s, isWritten c = true := by
  cases h with
  | @mk sign text whole fraction power negative e hSign hMantissa hPower =>
      refine ⟨by simp [hMantissa.head.1], fun c hMem => ?_⟩
      rw [List.mem_append, List.mem_append] at hMem
      rcases hMem with (hMem | hMem) | hMem
      · exact hSign.written c hMem
      · exact hMantissa.written c hMem
      · exact hPower.written c hMem

end RoughCut.Decimal
