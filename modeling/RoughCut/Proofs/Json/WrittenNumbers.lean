import Mathlib.Tactic.Linarith
import RoughCut.Json.Shape
import RoughCut.Proofs.Json.Digits
import RoughCut.Proofs.Seconds.Shortest

/-!
Numbers that are written and read again. A whole number comes back as it was. A
decimal, plain or with its power of ten, has a spelling, and the text of a finite
time is read as the digits of its shortest decimal.
-/

namespace RoughCut

open Json

/-! Digits as bytes. -/

/-- The byte of an ASCII character. -/
def digitByte (c : Char) : UInt8 :=
  UInt8.ofNat c.toNat

section Digit

variable {c : Char} (h : c.isDigit = true)
include h

theorem toNat_of_isDigit : 48 ≤ c.toNat ∧ c.toNat ≤ 57 := by
  simpa [Char.isDigit, UInt32.le_iff_toNat_le] using h

/-- A digit is one byte of a text, the one by which a reader knows it. -/
theorem utf8EncodeChar_of_isDigit : String.utf8EncodeChar c = [digitByte c] := by
  have hRange := toNat_of_isDigit h
  have hOne : c.val.toNat ≤ 127 := by
    have hSame : c.val.toNat = c.toNat := rfl
    omega
  rw [String.utf8EncodeChar]
  exact if_pos hOne

theorem isDigit_digitByte : Byte.isDigit (digitByte c) = true := by
  obtain ⟨hLow, hHigh⟩ := toNat_of_isDigit h
  have hByte : (digitByte c).toNat = c.toNat := Text.Utf8.toNat_ofNat (by omega)
  have hLow : 0x30 ≤ digitByte c := by
    rw [UInt8.le_iff_toNat_le, hByte]
    exact hLow
  have hHigh : digitByte c ≤ 0x39 := by
    rw [UInt8.le_iff_toNat_le, hByte]
    exact hHigh
  rw [Byte.isDigit, decide_eq_true hLow, decide_eq_true hHigh]
  rfl

theorem digitValue_digitByte : Number.digitValue (digitByte c) = c.toNat - 48 := by
  obtain ⟨_, hHigh⟩ := toNat_of_isDigit h
  rw [Number.digitValue, digitByte, Text.Utf8.toNat_ofNat (by omega)]

/-- A zero is told from other digits by its byte, as the rule about leading zeros needs
it. -/
theorem digitByte_eq_zero_iff : digitByte c = 0x30 ↔ c = '0' := by
  obtain ⟨_, hHigh⟩ := toNat_of_isDigit h
  rw [digitByte, Text.Utf8.ofNat_eq_iff (by omega), ← Char.toNat_inj]
  exact Iff.rfl

end Digit

section Digits

variable {cs : List Char}

/-- Digits are encoded one by one, so a run of them is as long in bytes as in
characters. -/
theorem flatMap_utf8EncodeChar_of_digits (h : ∀ c ∈ cs, c.isDigit = true) :
    cs.flatMap String.utf8EncodeChar = cs.map digitByte := by
  induction cs with
  | nil => rfl
  | cons c cs ih =>
      rw [List.flatMap_cons, utf8EncodeChar_of_isDigit (h c List.mem_cons_self),
        ih fun x hx => h x (List.mem_cons_of_mem c hx)]
      rfl

theorem areDigits_map (hNonempty : cs ≠ []) (h : ∀ c ∈ cs, c.isDigit = true) :
    Number.AreDigits (cs.map digitByte) := by
  refine ⟨by simpa using hNonempty, ?_⟩
  intro b hb
  obtain ⟨c, hc, rfl⟩ := List.mem_map.mp hb
  exact isDigit_digitByte (h c hc)

/-- A number other than zero is written without a zero in front. -/
theorem head_toDigits {n : Nat} (h : n ≠ 0) : (Nat.toDigits 10 n).head? ≠ some '0' := by
  induction n using Nat.strong_induction_on with
  | _ n ih =>
      rw [Nat.toDigits_eq_if (by decide)]
      split_ifs with hSmall
      · simpa using h
      · rw [List.head?_append_of_ne_nil _ Nat.toDigits_ne_nil]
        exact ih (n / 10) (by omega) (by omega)

/-- Digits that do not begin with a zero do not begin with one in bytes. -/
theorem head_map_digitByte (hDigits : ∀ c ∈ cs, c.isDigit = true)
    (h : cs.head? ≠ some '0') : (cs.map digitByte).head? ≠ some 0x30 := by
  cases cs with
  | nil => simp
  | cons c cs =>
      have hZero := digitByte_eq_zero_iff (hDigits c List.mem_cons_self)
      simpa [hZero] using h

end Digits

namespace Decimal

/-- The digits of a decimal as they are written. -/
def digitChars (d : Decimal) : List Char :=
  Nat.toDigits 10 d.digits

/-- The power of ten of the first digit. -/
def power (d : Decimal) : Int :=
  d.exponent + d.digitChars.length - 1

/-- The digits with zeros before them, one more than there are places after the
point at least. -/
def padded (d : Decimal) : List Char :=
  List.replicate ((-d.exponent).toNat + 1 - d.digitChars.length) '0' ++ d.digitChars

/-- The plain text of a decimal as digits before and after the point. -/
def plainSpelling (d : Decimal) : Number.Spelling :=
  if 0 ≤ d.exponent then
    ⟨(d.digitChars ++ List.replicate d.exponent.toNat '0').map digitByte, some [0x30], none⟩
  else
    let whole := d.padded.length - (-d.exponent).toNat
    ⟨(d.padded.take whole).map digitByte, some ((d.padded.drop whole).map digitByte), none⟩

/-- The text of a decimal with its power of ten. -/
def scientificSpelling (d : Decimal) : Number.Spelling :=
  ⟨(d.digitChars.take 1).map digitByte,
    if d.digitChars.length ≤ 1 then none else some ((d.digitChars.drop 1).map digitByte),
    some (decide (d.power < 0), (Nat.toDigits 10 d.power.natAbs).map digitByte)⟩

/-- What the text of a decimal consists of, its sign apart. -/
def spelling (d : Decimal) : Number.Spelling :=
  if plainRange.least ≤ d.power ∧ d.power ≤ plainRange.most then d.plainSpelling
  else d.scientificSpelling

variable {d : Decimal} {c : Char}

/-- A decimal is written plainly where its first digit stands near the point, and with
an exponent elsewhere. -/
theorem unsignedText_eq (d : Decimal) :
    d.unsignedText =
      if plainRange.least ≤ d.power ∧ d.power ≤ plainRange.most then
        plainText d.digitChars d.exponent
      else scientificText d.digitChars d.power :=
  rfl

/-- Even zero has a digit, so no number is written without any. -/
theorem digitChars_ne_nil (d : Decimal) : d.digitChars ≠ [] :=
  Nat.toDigits_ne_nil

theorem length_digitChars_pos (d : Decimal) : 0 < d.digitChars.length :=
  List.length_pos_iff.mpr d.digitChars_ne_nil

theorem isDigit_of_mem_digitChars (h : c ∈ d.digitChars) : c.isDigit = true :=
  Nat.isDigit_of_mem_toDigits (by decide) (by decide) h

theorem isDigit_of_mem_replicate {n : Nat} (h : c ∈ List.replicate n '0') : c.isDigit = true := by
  rw [List.eq_of_mem_replicate h]
  decide

theorem isDigit_of_mem_extended (h : c ∈ d.digitChars ++ List.replicate d.exponent.toNat '0') :
    c.isDigit = true := by
  rcases List.mem_append.mp h with hDigit | hZero
  · exact isDigit_of_mem_digitChars hDigit
  · exact isDigit_of_mem_replicate hZero

/-- Zeros that are put before a fraction are digits like the others. -/
theorem isDigit_of_mem_padded (h : c ∈ d.padded) : c.isDigit = true := by
  rcases List.mem_append.mp h with hZero | hDigit
  · exact isDigit_of_mem_replicate hZero
  · exact isDigit_of_mem_digitChars hDigit

/-- The padded digits have one digit before the point at least. -/
theorem length_padded (d : Decimal) : (-d.exponent).toNat < d.padded.length := by
  rw [padded, List.length_append, List.length_replicate]
  omega

/-- The plain form of a decimal is a spelling of digits, a point and more digits, as the
grammar of numbers has it. -/
theorem flatMap_plainText (d : Decimal) :
    (plainText d.digitChars d.exponent).flatMap String.utf8EncodeChar = d.plainSpelling.bytes := by
  have hPoint : String.utf8EncodeChar '.' = [Byte.point] := by decide
  have hZero : String.utf8EncodeChar '0' = [0x30] := by decide
  rw [plainText, plainSpelling]
  split_ifs with hWhole
  · rw [List.flatMap_append, flatMap_utf8EncodeChar_of_digits fun _ => isDigit_of_mem_extended]
    simp [Number.Spelling.bytes, Number.Spelling.fractionBytes, Number.Spelling.powerBytes,
      hPoint, hZero]
  · change (d.padded.take _ ++ '.' :: d.padded.drop _).flatMap String.utf8EncodeChar = _
    have hBefore (n : Nat) : ∀ c ∈ d.padded.take n, c.isDigit = true :=
      fun c hc => isDigit_of_mem_padded (List.mem_of_mem_take hc)
    have hAfter (n : Nat) : ∀ c ∈ d.padded.drop n, c.isDigit = true :=
      fun c hc => isDigit_of_mem_padded (List.mem_of_mem_drop hc)
    rw [List.flatMap_append, List.flatMap_cons, hPoint,
      flatMap_utf8EncodeChar_of_digits (hBefore _), flatMap_utf8EncodeChar_of_digits (hAfter _)]
    simp [Number.Spelling.bytes, Number.Spelling.fractionBytes, Number.Spelling.powerBytes, padded]

/-- The form with an exponent is a spelling of digits, perhaps a point, and an exponent
with its sign. -/
theorem flatMap_scientificText (d : Decimal) :
    (scientificText d.digitChars d.power).flatMap String.utf8EncodeChar =
      d.scientificSpelling.bytes := by
  have hMark : String.utf8EncodeChar 'e' = [0x65] := by decide
  have hPoint : String.utf8EncodeChar '.' = [Byte.point] := by decide
  have hMinus : String.utf8EncodeChar '-' = [Byte.minus] := by decide
  have hPlus : String.utf8EncodeChar '+' = [0x2B] := by decide
  have hSign : String.utf8EncodeChar (if d.power < 0 then '-' else '+') =
      [if d.power < 0 then Byte.minus else 0x2B] := by
    split_ifs
    · exact hMinus
    · exact hPlus
  have hFirst : ∀ c ∈ d.digitChars.take 1, c.isDigit = true :=
    fun c hc => isDigit_of_mem_digitChars (List.mem_of_mem_take hc)
  have hOthers : ∀ c ∈ d.digitChars.drop 1, c.isDigit = true :=
    fun c hc => isDigit_of_mem_digitChars (List.mem_of_mem_drop hc)
  have hPower : ∀ c ∈ Nat.toDigits 10 d.power.natAbs, c.isDigit = true :=
    fun c => Nat.isDigit_of_mem_toDigits (by decide) (by decide)
  rw [scientificText, scientificSpelling]
  by_cases hOne : d.digitChars.length ≤ 1
  · simp only [if_pos hOne, List.append_nil, List.flatMap_append, List.flatMap_cons, hMark, hSign]
    rw [flatMap_utf8EncodeChar_of_digits hFirst, flatMap_utf8EncodeChar_of_digits hPower]
    simp [Number.Spelling.bytes, Number.Spelling.fractionBytes, Number.Spelling.powerBytes]
  · simp only [if_neg hOne, List.flatMap_append, List.flatMap_cons, hMark, hSign, hPoint]
    rw [flatMap_utf8EncodeChar_of_digits hFirst, flatMap_utf8EncodeChar_of_digits hOthers,
      flatMap_utf8EncodeChar_of_digits hPower]
    simp [Number.Spelling.bytes, Number.Spelling.fractionBytes, Number.Spelling.powerBytes]

/-- The text of a decimal is its spelling. -/
theorem flatMap_unsignedText (d : Decimal) :
    d.unsignedText.flatMap String.utf8EncodeChar = d.spelling.bytes := by
  rw [unsignedText_eq, spelling]
  split_ifs
  · exact d.flatMap_plainText
  · exact d.flatMap_scientificText

/-- A decimal is nonzero, or it is the zero that is written without a power. -/
def Written (d : Decimal) : Prop :=
  d.digits ≠ 0 ∨ d.exponent = 0

/-- No zero is in front of the digits of a number other than zero. -/
theorem head_digitChars (h : d.digits ≠ 0) : d.digitChars.head? ≠ some '0' :=
  head_toDigits h

theorem digitChars_zero (h : d.digits = 0) : d.digitChars = ['0'] := by
  rw [digitChars, h]
  rfl

/-- The plain form is a number to the grammar. Before its point are no zeros that it
would not allow. -/
theorem plainSpelling_valid (h : d.Written) : d.plainSpelling.Valid := by
  have hLength := d.length_digitChars_pos
  rw [plainSpelling]
  split_ifs with hWhole
  · refine ⟨areDigits_map (by simp [digitChars_ne_nil]) fun _ => isDigit_of_mem_extended,
      ?_, ?_, by simp⟩
    · intro hHead
      by_cases hZero : d.digits = 0
      · have hExponent : d.exponent = 0 := h.resolve_left (by simpa using hZero)
        simp [digitChars_zero hZero, hExponent]
      · refine absurd hHead (head_map_digitByte (fun _ => isDigit_of_mem_extended) ?_)
        rw [List.head?_append_of_ne_nil _ d.digitChars_ne_nil]
        exact head_digitChars hZero
    · simp [Number.AreDigits]
      decide
  · have hPadded := d.length_padded
    have hDigits : d.digits ≠ 0 := h.resolve_right (by omega)
    have hPlaces : 0 < (-d.exponent).toNat := by omega
    refine ⟨areDigits_map ?_ fun c hc => isDigit_of_mem_padded (List.mem_of_mem_take hc),
      ?_, ?_, by simp⟩
    · rw [← List.length_pos_iff, List.length_take]
      omega
    · intro hHead
      simp only [List.length_map, List.length_take]
      by_cases hShort : d.digitChars.length ≤ (-d.exponent).toNat
      · rw [padded, List.length_append, List.length_replicate]
        omega
      · refine absurd hHead (head_map_digitByte
          (fun c hc => isDigit_of_mem_padded (List.mem_of_mem_take hc)) ?_)
        have hNone : (-d.exponent).toNat + 1 - d.digitChars.length = 0 := by omega
        rw [List.head?_take, if_neg (by omega), padded, hNone]
        exact head_digitChars hDigits
    · simp only [Option.mem_def, Option.some.injEq, forall_eq']
      refine areDigits_map ?_ fun c hc => isDigit_of_mem_padded (List.mem_of_mem_drop hc)
      rw [← List.length_pos_iff, List.length_drop]
      omega

/-- The form with an exponent is a number to the grammar, since it has just one digit
before the point. -/
theorem scientificSpelling_valid (d : Decimal) : d.scientificSpelling.Valid := by
  have hLength := d.length_digitChars_pos
  refine ⟨areDigits_map ?_ fun c hc => isDigit_of_mem_digitChars (List.mem_of_mem_take hc),
    ?_, ?_, ?_⟩
  · rw [← List.length_pos_iff, List.length_take]
    omega
  · intro _
    simp only [scientificSpelling, List.length_map, List.length_take]
    omega
  · intro ds hds
    rw [scientificSpelling, Option.mem_def] at hds
    split_ifs at hds with hOne
    cases hds
    refine areDigits_map ?_ fun c hc => isDigit_of_mem_digitChars (List.mem_of_mem_drop hc)
    rw [← List.length_pos_iff, List.length_drop]
    omega
  · intro p hp
    cases hp
    exact areDigits_map Nat.toDigits_ne_nil
      fun c => Nat.isDigit_of_mem_toDigits (by decide) (by decide)

/-- Whichever form is chosen for a decimal, it is a number to the grammar. -/
theorem spelling_valid (h : d.Written) : d.spelling.Valid := by
  rw [spelling]
  split_ifs
  · exact plainSpelling_valid h
  · exact d.scientificSpelling_valid

/-- A decimal is spelled with a point or an exponent, so it is read as a time. Without
either it would be taken for a whole number. -/
theorem number_spelling (d : Decimal) (negative : Bool) :
    d.spelling.number negative = Number.ofDigits negative d.spelling.whole
      (d.spelling.fraction.getD []) (d.spelling.exponent?.getD 0) := by
  rw [spelling]
  split_ifs with hPlain
  · rw [plainSpelling]
    split_ifs <;> rfl
  · rw [Number.Spelling.number]
    cases d.scientificSpelling.fraction <;> rfl

end Decimal

namespace Json.Number

variable {negative : Bool} {whole fraction : List UInt8} {e : Int} {n : Number}

/-- A number made of digits is a time. -/
theorem decimal_of_ofDigits (h : ofDigits negative whole fraction e = .ok n) :
    ∃ x, n = .decimal x := by
  rw [ofDigits] at h
  cases hMagnitude : magnitude? whole fraction e with
  | none =>
      rw [hMagnitude] at h
      cases h
  | some m =>
      rw [hMagnitude] at h
      cases h
      exact ⟨_, rfl⟩

theorem le_ofDigitChars (cs : List Char) (n : Nat) : n ≤ Nat.ofDigitChars 10 cs n := by
  rw [Nat.ofDigitChars_eq_ofDigitChars_zero]
  exact Nat.le_add_right_of_le (Nat.le_mul_of_pos_left n (Nat.pow_pos (by decide)))

/-- Digits are gathered to the number they make, if that is within the limit. -/
theorem gather_map_digitByte {cs : List Char} (hDigits : ∀ c ∈ cs, c.isDigit = true) {n : Nat}
    (hLimit : Nat.ofDigitChars 10 cs n ≤ gatherLimit) :
    gather n (cs.map digitByte) = (Nat.ofDigitChars 10 cs n, []) := by
  induction cs generalizing n with
  | nil => rfl
  | cons c cs ih =>
      have hNext : n * 10 + digitValue (digitByte c) = 10 * n + (c.toNat - '0'.toNat) := by
        rw [digitValue_digitByte (hDigits c List.mem_cons_self), Nat.mul_comm]
        rfl
      rw [Nat.ofDigitChars_cons] at hLimit ⊢
      rw [List.map_cons, gather, hNext, if_pos ((le_ofDigitChars cs _).trans hLimit)]
      exact ih (fun d hd => hDigits d (List.mem_cons_of_mem c hd)) hLimit

/-- The digits of a whole number. -/
def wholeSpelling (n : Nat) : Spelling :=
  ⟨(Nat.toDigits 10 n).map digitByte, none, none⟩

/-- A whole number is spelled with its digits alone, without a point or an exponent. -/
theorem flatMap_chars_integer (n : Nat) :
    (chars (.integer n)).flatMap String.utf8EncodeChar = (wholeSpelling n).bytes := by
  have hChars : chars (.integer n) = Nat.toDigits 10 n := String.toList_ofList
  rw [hChars, flatMap_utf8EncodeChar_of_digits
    fun c => Nat.isDigit_of_mem_toDigits (by decide) (by decide)]
  simp [wholeSpelling, Spelling.bytes, Spelling.fractionBytes, Spelling.powerBytes]

/-- The digits of a whole number have no zero before them unless it is zero, so they are
a number to the grammar. -/
theorem wholeSpelling_valid (n : Nat) : (wholeSpelling n).Valid := by
  have hDigits : ∀ c ∈ Nat.toDigits 10 n, c.isDigit = true :=
    fun c => Nat.isDigit_of_mem_toDigits (by decide) (by decide)
  refine ⟨areDigits_map Nat.toDigits_ne_nil hDigits, ?_, by simp [wholeSpelling],
    by simp [wholeSpelling]⟩
  intro hHead
  by_cases hZero : n = 0
  · subst hZero
    rfl
  · exact absurd hHead (head_map_digitByte hDigits (head_toDigits hZero))

/-- A whole number that a machine word can hold is gathered digit by digit, and none of
its digits is dropped. -/
theorem number_wholeSpelling {n : Nat} (h : n ≤ gatherLimit) :
    (wholeSpelling n).number false = .ok (.integer n) := by
  have hGather : gather 0 ((Nat.toDigits 10 n).map digitByte) = (n, []) := by
    rw [gather_map_digitByte
      (fun c => Nat.isDigit_of_mem_toDigits (by decide) (by decide))
      (by rwa [Nat.ofDigitChars_ten_toDigits]), Nat.ofDigitChars_ten_toDigits]
  change ofWhole false ((Nat.toDigits 10 n).map digitByte) = _
  rw [ofWhole, hGather]
  rfl

end Json.Number

namespace Seconds

variable {x : Seconds}

/-- The sign of a time is written where the time has one, also before a zero. So the two
zeros come back as they were. -/
theorem negative_shortest (x : Seconds) : x.shortest.negative = x.isNegative := by
  unfold shortest
  split_ifs <;> rfl

/-- The shortest digits of a finite time have the form in which decimals are written,
without zeros at the end. -/
theorem written_shortest (h : x.isFinite = true) : x.shortest.Written := by
  unfold shortest
  split_ifs with hZero
  · exact Or.inr rfl
  · obtain ⟨d, k, hShortest, -, hPos, -⟩ :=
      shortestMagnitude_spec (Nat.pos_of_ne_zero hZero) (of_decide_eq_true h)
    rw [hShortest]
    exact Or.inl hPos.ne'

/-- The text of a finite time is a minus where the time has one and then the
digits of its shortest decimal. -/
theorem flatMap_chars (h : x.isFinite = true) :
    (Number.chars (.decimal x)).flatMap String.utf8EncodeChar =
      (if x.isNegative then [Byte.minus] else []) ++ x.shortest.spelling.bytes := by
  have hMinus : String.utf8EncodeChar '-' = [Byte.minus] := by decide
  rw [Number.chars, if_pos h, exactText, Decimal.text, String.toList_ofList, negative_shortest]
  split_ifs
  · rw [List.flatMap_cons, Decimal.flatMap_unsignedText, hMinus]
  · exact Decimal.flatMap_unsignedText _

/-- The text of a finite time is recognized as a number. -/
theorem opening_chars (h : x.isFinite = true) (r : List UInt8) :
    Opening.read ((Number.chars (.decimal x)).flatMap String.utf8EncodeChar ++ r) =
      .ok (.number x.isNegative, x.shortest.spelling.bytes ++ r) := by
  rw [flatMap_chars h]
  cases hSign : x.isNegative with
  | true => rfl
  | false => exact Number.Spelling.opening_bytes (Decimal.spelling_valid (written_shortest h)) r

/-- The text of a finite time is read as the digits of its shortest decimal. -/
theorem read_chars (h : x.isFinite = true) {r : List UInt8} (hr : Number.Ends r) :
    Number.read x.isNegative (x.shortest.spelling.bytes ++ r) =
      (x.shortest.spelling.number x.isNegative).map fun n => (n, r) :=
  Number.Spelling.read_bytes (Decimal.spelling_valid (written_shortest h)) hr x.isNegative

end Seconds

end RoughCut
