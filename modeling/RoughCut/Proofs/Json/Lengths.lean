import RoughCut.Json.Shape
import RoughCut.Proofs.Json.ReadTimes

/-!
How long texts are. A value without a blank takes the bytes of its parts and
one for each mark between and around them, and a finite time never takes more
than twenty-four.
-/

namespace RoughCut

open Json

/-! ### Times -/

namespace Seconds

/-- The exponent of the shortest decimal is one of those of the grids that are searched.
-/
theorem exponent_firstGridPoint (m : Nat) (k : Int) (grids : Nat) :
    k - grids ≤ (firstGridPoint m k grids).2 ∧ (firstGridPoint m k grids).2 ≤ k := by
  induction grids generalizing k with
  | zero => exact ⟨by simp [firstGridPoint], by simp [firstGridPoint]⟩
  | succ grids ih =>
      rw [firstGridPoint]
      split
      · exact ⟨by omega, Int.le_refl k⟩
      · obtain ⟨hLow, hHigh⟩ := ih (k - 1)
        exact ⟨by omega, by omega⟩

/-- The last digit of a shortest decimal is never so far from the point that
its place has four digits. -/
theorem exponent_shortest {x : Seconds} (h : x.isFinite = true) :
    -400 ≤ x.shortest.exponent ∧ x.shortest.exponent ≤ 400 := by
  unfold shortest
  split_ifs with hZero
  · change (-400 : Int) ≤ 0 ∧ (0 : Int) ≤ 400
    decide
  · have hFinite : x.magnitude < infiniteMagnitude := of_decide_eq_true h
    have hPlace : (ticks x.magnitude).log2 < 52 + 2046 := log2_ticks_lt hFinite
    have hRange := exponent_firstGridPoint x.magnitude (coarsest x.magnitude) 25
    change -400 ≤ (shortestMagnitude x.magnitude).2 ∧ (shortestMagnitude x.magnitude).2 ≤ 400
    rw [shortestMagnitude]
    rw [coarsest] at hRange ⊢
    omega

end Seconds

/-- A number has a point before its fraction, and an `e` and a sign before its
power of ten. -/
theorem Json.Number.Spelling.length_bytes (n : Number.Spelling) :
    n.bytes.length = n.whole.length + n.fraction.elim 0 (·.length + 1) +
      n.power.elim 0 (·.2.length + 2) := by
  have hFraction : n.fractionBytes.length = n.fraction.elim 0 (·.length + 1) := by
    rw [fractionBytes]
    cases n.fraction <;> rfl
  have hPower : n.powerBytes.length = n.power.elim 0 (·.2.length + 2) := by
    rw [powerBytes]
    cases n.power <;> rfl
  rw [bytes, List.length_append, List.length_append, hFraction, hPower]

namespace Decimal

variable {d : Decimal}

/-- Five zeros and a point may come before seventeen digits. The powers for which the
plain form is chosen do not allow for more. -/
theorem length_plainSpelling (hDigits : d.digitChars.length ≤ 17)
    (hLeast : plainRange.least ≤ d.power) (hMost : d.power ≤ plainRange.most) :
    d.plainSpelling.bytes.length ≤ 23 := by
  have hRange : plainRange.least = -5 ∧ plainRange.most = 15 := ⟨rfl, rfl⟩
  have hPower : d.power = d.exponent + d.digitChars.length - 1 := rfl
  rw [plainSpelling]
  split_ifs with hWhole
  · simp only [Number.Spelling.length_bytes, Option.elim_some, Option.elim_none, List.length_map,
      List.length_append, List.length_replicate, List.length_singleton]
    omega
  · have hPadded : d.padded.length ≤ 22 := by
      simp only [padded, List.length_append, List.length_replicate]
      omega
    simp only [Number.Spelling.length_bytes, Option.elim_some, Option.elim_none, List.length_map,
      List.length_take, List.length_drop]
    omega

/-- Seventeen digits with a point among them may have a power of ten of three. -/
theorem length_scientificSpelling (hDigits : d.digitChars.length ≤ 17)
    (hLeast : -999 ≤ d.power) (hMost : d.power ≤ 999) :
    d.scientificSpelling.bytes.length ≤ 23 := by
  have hPower : (Nat.toDigits 10 d.power.natAbs).length ≤ 3 :=
    (Nat.length_toDigits_le_iff (by decide) (by decide)).mpr (by omega)
  have hFraction : (if d.digitChars.length ≤ 1 then none
      else some ((d.digitChars.drop 1).map digitByte)).elim 0 (·.length + 1) ≤ 17 := by
    split_ifs
    · exact Nat.zero_le _
    · simp only [Option.elim_some, List.length_map, List.length_drop]
      omega
  simp only [scientificSpelling, Number.Spelling.length_bytes, Option.elim_some, List.length_map,
    List.length_take]
  omega

end Decimal

/-- The longest text of a finite time has a minus, seventeen digits, a point and
four zeros before them, or a power of ten after them. -/
theorem Seconds.length_chars_le {x : Seconds} (h : x.isFinite = true) :
    ((Number.chars (.decimal x)).flatMap String.utf8EncodeChar).length ≤ 24 := by
  have hDigits : x.shortest.digitChars.length ≤ 17 :=
    (Nat.length_toDigits_le_iff (by decide) (by decide)).mpr (digits_shortest_lt h)
  have hSome := x.shortest.length_digitChars_pos
  have hExponent := exponent_shortest h
  have hPower : x.shortest.power = x.shortest.exponent + x.shortest.digitChars.length - 1 := rfl
  have hSpelling : x.shortest.spelling.bytes.length ≤ 23 := by
    unfold Decimal.spelling
    split_ifs with hPlain
    · exact Decimal.length_plainSpelling hDigits hPlain.1 hPlain.2
    · exact Decimal.length_scientificSpelling hDigits (by omega) (by omega)
  have hSign : (if x.isNegative then [Byte.minus] else []).length ≤ 1 := by
    split_ifs <;> decide
  rw [flatMap_chars h, List.length_append]
  omega

/-! ### Values -/

namespace Json.Value

/-- The bytes of the value as a text without a blank. -/
def size (v : Value) : Nat :=
  (Text.Utf8.encode v.compactText).length

/-- The size of a value is the number of bytes that its compact text has. -/
theorem size_eq (v : Value) : v.size = (v.compact.flatMap String.utf8EncodeChar).length := by
  rw [size, compactText, Text.Utf8.encode_ofList]

theorem length_flatMap_compactItems (vs : List Value) :
    ((compactItems vs).flatMap String.utf8EncodeChar).length = (vs.map size).sum + vs.length + 1 := by
  have hComma : (String.utf8EncodeChar ',').length = 1 := by decide
  induction vs with
  | nil => decide
  | cons v vs ih =>
      simp only [compactItems, List.cons_append, List.flatMap_append, List.flatMap_cons, hComma,
        List.length_append, List.map_cons, List.sum_cons, List.length_cons, ih, ← size_eq]
      omega

/-- The items with a comma between each two of them and two brackets. -/
theorem size_array (vs : List Value) :
    (array vs).size = (vs.map size).sum + (vs.length - 1) + 2 := by
  have hBracket : (String.utf8EncodeChar '[').length = 1 := by decide
  rw [size_eq]
  cases vs with
  | nil => decide
  | cons v vs =>
      simp only [compact, List.cons_append, List.flatMap_append, List.flatMap_cons, hBracket,
        List.length_append, length_flatMap_compactItems, ← size_eq, List.map_cons, List.sum_cons,
        List.length_cons]
      omega

/-- The bytes of a member: its key, a colon and its value. -/
def memberSize (m : String × Value) : Nat :=
  (text m.1).size + 1 + m.2.size

theorem length_flatMap_compactMembers (ms : List (String × Value)) :
    ((compactMembers ms).flatMap String.utf8EncodeChar).length =
      (ms.map memberSize).sum + ms.length + 1 := by
  have hComma : (String.utf8EncodeChar ',').length = 1 := by decide
  have hColon : (String.utf8EncodeChar ':').length = 1 := by decide
  induction ms with
  | nil => decide
  | cons m ms ih =>
      have hKey : (text m.1).size = _ := size_eq _
      simp only [compactMembers, List.cons_append, List.flatMap_append, List.flatMap_cons, hComma,
        hColon, List.length_append, List.map_cons, List.sum_cons, List.length_cons, ih, memberSize,
        hKey, compact, ← size_eq]
      omega

/-- The members with a comma between each two of them and two braces. -/
theorem size_object (ms : List (String × Value)) :
    (object ms).size = (ms.map memberSize).sum + (ms.length - 1) + 2 := by
  have hBrace : (String.utf8EncodeChar '\x7b').length = 1 := by decide
  have hColon : (String.utf8EncodeChar ':').length = 1 := by decide
  rw [size_eq]
  cases ms with
  | nil => decide
  | cons m ms =>
      have hKey : (text m.1).size = _ := size_eq _
      simp only [compact, List.cons_append, List.flatMap_append, List.flatMap_cons, hBrace, hColon,
        List.length_append, length_flatMap_compactMembers, List.map_cons, List.sum_cons,
        List.length_cons, memberSize, hKey, ← size_eq]
      omega

/-- A finite time is written with twenty-four bytes at most, those of a sign, seventeen
digits, a point and an exponent. -/
theorem size_time_le {x : Seconds} (h : x.isFinite = true) : (number (.decimal x)).size ≤ 24 := by
  rw [size_eq]
  exact Seconds.length_chars_le h

end Json.Value

end RoughCut
