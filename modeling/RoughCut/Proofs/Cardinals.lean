import Mathlib.Data.List.Nodup
import Mathlib.Data.List.TakeWhile
import RoughCut.Proofs.SpokenNumbers
import RoughCut.Proofs.Text.Digits
import RoughCut.Proofs.Text.SmallLetters

/-!
Which words are read as numbers, and as which. A word of digits says the number
that has these digits, as long as it is positive and has a place in thirty-two bits,
however many zeros come first. Any other word has to be the English name of a number
from one to ninety-nine, in letters of any case.
-/

namespace RoughCut.Numeral

/-- The name of a number from one to nineteen. -/
def unitName : Nat → String
  | 1 => "one"
  | 2 => "two"
  | 3 => "three"
  | 4 => "four"
  | 5 => "five"
  | 6 => "six"
  | 7 => "seven"
  | 8 => "eight"
  | 9 => "nine"
  | 10 => "ten"
  | 11 => "eleven"
  | 12 => "twelve"
  | 13 => "thirteen"
  | 14 => "fourteen"
  | 15 => "fifteen"
  | 16 => "sixteen"
  | 17 => "seventeen"
  | 18 => "eighteen"
  | 19 => "nineteen"
  | _ => ""

/-- The name of so many tens, from two to nine. -/
def tenName : Nat → String
  | 2 => "twenty"
  | 3 => "thirty"
  | 4 => "forty"
  | 5 => "fifty"
  | 6 => "sixty"
  | 7 => "seventy"
  | 8 => "eighty"
  | 9 => "ninety"
  | _ => ""

/-- The English cardinal of a number from one to ninety-nine. -/
def cardinal (n : Nat) : String :=
  if n < 20 then unitName n
  else if n % 10 = 0 then tenName (n / 10)
  else tenName (n / 10) ++ "-" ++ unitName (n % 10)

variable {word : String} {n : Nat}

/-! Digits. -/

/-- A word of thirty-two bits holds the numbers up to its limit, and zero is not taken
for the number of anything. -/
theorem ofNat?_eq_some_iff {value : Nat} :
    (ofNat? value).map UInt32.toNat = some n ↔ value = n ∧ 1 ≤ n ∧ n ≤ 4294967295 := by
  have hLimit : Nat.pow 2 32 = 4294967296 := rfl
  unfold ofNat?
  split
  · next hRange =>
    rw [Option.map_some, UInt32.toNat_ofNat_of_lt' hRange.2, Option.some_inj]
    omega
  · next hRange =>
    refine iff_of_false (by simp) ?_
    rintro ⟨rfl, hPos, hMost⟩
    omega

theorem isDigit_toLower (c : Char) : c.toLower.isDigit = c.isDigit := by
  have hLetters : ∀ i < 26,
      (Char.ofNat (65 + i)).toLower.isDigit = (Char.ofNat (65 + i)).isDigit := by
    decide
  rcases Text.toLower_eq_or_capital c with hSame | ⟨i, hi, rfl⟩
  · rw [hSame]
  · exact hLetters i hi

/-- Digits have no case, so a word is digits if it is so in small letters. -/
theorem all_isDigit_lower (word : String) :
    (Text.lower word).toList.all Char.isDigit = word.toList.all Char.isDigit := by
  rw [Text.toList_lower, List.all_map]
  exact congrArg word.toList.all (funext isDigit_toLower)

/-! Names. -/

/-- No two names are the same. -/
theorem nodup_names : (units ++ tens).Nodup := by
  decide

/-- The words for the units are the names of the numbers from one to nineteen, in this
order. -/
theorem units_eq : units = (List.range 19).map fun i => unitName (i + 1) :=
  rfl

/-- The words for the tens are the names from twenty to ninety, in this order. -/
theorem tens_eq : tens = (List.range 8).map fun i => tenName (i + 2) :=
  rfl

/-- A name is found at its own place. -/
theorem idxOf?_map_range {name : Nat → String} {length i : Nat}
    (hNames : ((List.range length).map name).Nodup) :
    ((List.range length).map name).idxOf? word = some i ↔ i < length ∧ word = name i := by
  rw [List.idxOf?_eq_some_iff]
  constructor
  · rintro ⟨hi, rfl, -⟩
    rw [List.length_map, List.length_range] at hi
    exact ⟨hi, by rw [List.getElem_map, List.getElem_range]⟩
  · rintro ⟨hi, rfl⟩
    refine ⟨by rwa [List.length_map, List.length_range], ?_, fun j hj hSame => ?_⟩
    · rw [List.getElem_map, List.getElem_range]
    · rw [List.getElem_map, List.getElem_range] at hSame
      have hPlace : j = i := List.inj_on_of_nodup_map hNames
        (List.mem_range.mpr (by omega)) (List.mem_range.mpr hi) hSame
      omega

/-- The names of units are those from one to nineteen. -/
theorem unit?_eq_some_iff : unit? word = some n ↔ 1 ≤ n ∧ n < 20 ∧ word = unitName n := by
  have hNames := nodup_names.of_append_left
  rw [units_eq] at hNames
  simp only [unit?, units_eq, Option.map_eq_some_iff, idxOf?_map_range hNames]
  constructor
  · rintro ⟨i, ⟨hi, rfl⟩, rfl⟩
    exact ⟨by omega, by omega, rfl⟩
  · rintro ⟨hPos, hMost, rfl⟩
    obtain ⟨i, rfl⟩ := Nat.exists_eq_add_of_le' hPos
    exact ⟨i, ⟨by omega, rfl⟩, rfl⟩

/-- The names of tens are those from twenty to ninety. -/
theorem ten?_eq_some_iff :
    ten? word = some n ↔ ∃ k, 2 ≤ k ∧ k ≤ 9 ∧ n = 10 * k ∧ word = tenName k := by
  have hNames := nodup_names.of_append_right
  rw [tens_eq] at hNames
  simp only [ten?, tens_eq, Option.map_eq_some_iff, idxOf?_map_range hNames]
  constructor
  · rintro ⟨i, ⟨hi, rfl⟩, rfl⟩
    exact ⟨i + 2, by omega, by omega, rfl, rfl⟩
  · rintro ⟨k, hLeast, hMost, rfl, rfl⟩
    obtain ⟨i, rfl⟩ := Nat.exists_eq_add_of_le' hLeast
    exact ⟨i, ⟨by omega, rfl⟩, rfl⟩

/-- No word is the name of a unit and of a ten. So it does not matter which is looked
for first. -/
theorem unit?_tenName {k : Nat} (hLeast : 2 ≤ k) (hMost : k ≤ 9) : unit? (tenName k) = none := by
  have hTen : tenName k ∈ tens := by
    rw [tens_eq, List.mem_map]
    exact ⟨k - 2, List.mem_range.mpr (by omega), by rw [Nat.sub_add_cancel hLeast]⟩
  have hOther : tenName k ∉ units := fun hUnit =>
    List.disjoint_of_nodup_append nodup_names hUnit hTen
  rw [unit?, List.idxOf?_eq_none_iff.mpr hOther, Option.map_none]

theorem all_isLower_unitName (n : Nat) : (unitName n).toList.all Char.isLower = true := by
  unfold unitName
  split <;> rfl

theorem all_isLower_tenName (n : Nat) : (tenName n).toList.all Char.isLower = true := by
  unfold tenName
  split <;> rfl

/-- A word of small letters has no hyphen in it, so it is not parted. -/
theorem hyphen_not_mem_of_isLower (h : word.toList.all Char.isLower = true) :
    '-' ∉ word.toList := fun hMem => by
  have hLetter : Char.isLower '-' = true := List.all_eq_true.mp h '-' hMem
  cases hLetter

theorem toLower_of_isLower {c : Char} (h : c.isLower = true) : c.toLower = c := by
  have hLetters : ∀ i < 26, (Char.ofNat (65 + i)).isLower = false := by decide
  rcases Text.toLower_eq_or_capital c with hSame | ⟨i, hi, rfl⟩
  · exact hSame
  · rw [hLetters i hi] at h
    cases h

theorem lower_of_isLower (h : word.toList.all Char.isLower = true) : Text.lower word = word := by
  have hSame : ∀ c ∈ word.toList, c.toLower = id c := fun c hMem =>
    toLower_of_isLower (List.all_eq_true.mp h c hMem)
  rw [← String.toList_inj, Text.toList_lower, List.map_congr_left hSame, List.map_id]

theorem hyphen_not_mem_unitName (n : Nat) : '-' ∉ (unitName n).toList :=
  hyphen_not_mem_of_isLower (all_isLower_unitName n)

theorem hyphen_not_mem_tenName (n : Nat) : '-' ∉ (tenName n).toList :=
  hyphen_not_mem_of_isLower (all_isLower_tenName n)

/-- A word with a hyphen is no name of units or tens. -/
theorem hyphen_not_mem_of_simple (h : (unit? word).or (ten? word) = some n) :
    '-' ∉ word.toList := by
  rcases Option.or_eq_some_iff.mp h with hUnit | ⟨-, hTen⟩
  · obtain ⟨-, -, rfl⟩ := unit?_eq_some_iff.mp hUnit
    exact hyphen_not_mem_unitName n
  · obtain ⟨k, -, -, -, rfl⟩ := ten?_eq_some_iff.mp hTen
    exact hyphen_not_mem_tenName k

/-- A word around a hyphen is parted at its first one. What stands behind a second
hyphen is left in the unit, which then is the name of no number. -/
theorem ofCardinal?_of_hyphen {front rest : List Char} (hFront : '-' ∉ front) :
    ofCardinal? (String.ofList (front ++ '-' :: rest)) = (do
      let unit ← (unit? (String.ofList rest)).filter (· < 10)
      let ten ← ten? (String.ofList front)
      return ten + unit) := by
  have hSimple : (unit? (String.ofList (front ++ '-' :: rest))).or
      (ten? (String.ofList (front ++ '-' :: rest))) = none := by
    refine Option.eq_none_iff_forall_ne_some.mpr fun n hName => ?_
    refine hyphen_not_mem_of_simple hName ?_
    rw [String.toList_ofList]
    exact List.mem_append_right _ List.mem_cons_self
  have hOther : ∀ c ∈ front, decide (c ≠ '-') = true := by
    intro c hc
    exact decide_eq_true fun hSame => hFront (hSame ▸ hc)
  rw [ofCardinal?, hSimple]
  simp only [String.toList_ofList, List.dropWhile_append_of_pos hOther,
    List.takeWhile_append_of_pos hOther]
  simp

/-- A word without a hyphen is the name of a unit or of a ten, or of no number. -/
theorem ofCardinal?_of_no_hyphen (h : '-' ∉ word.toList) :
    ofCardinal? word = (unit? word).or (ten? word) := by
  have hNone : word.toList.dropWhile (· ≠ '-') = [] := by
    rw [List.dropWhile_eq_nil_iff]
    exact fun c hc => decide_eq_true fun hSame => h (hSame ▸ hc)
  unfold ofCardinal?
  rw [hNone]
  cases (unit? word).or (ten? word) <;> rfl

/-- Two words around a hyphen are one of the tens and a unit up to nine. -/
theorem ofCardinal?_of_hyphen_iff {front rest : List Char} (hFront : '-' ∉ front) :
    ofCardinal? (String.ofList (front ++ '-' :: rest)) = some n ↔
      ∃ k u, 2 ≤ k ∧ k ≤ 9 ∧ 1 ≤ u ∧ u < 10 ∧ n = 10 * k + u ∧
        String.ofList front = tenName k ∧ String.ofList rest = unitName u := by
  rw [ofCardinal?_of_hyphen hFront]
  constructor
  · intro h
    obtain ⟨u, hUnit, h⟩ := Option.bind_eq_some_iff.mp h
    obtain ⟨ten, hTen, h⟩ := Option.bind_eq_some_iff.mp h
    obtain ⟨hUnit, hSmall⟩ := Option.filter_eq_some_iff.mp hUnit
    obtain ⟨hPos, -, hRest⟩ := unit?_eq_some_iff.mp hUnit
    obtain ⟨k, hLeast, hMost, rfl, hFrontName⟩ := ten?_eq_some_iff.mp hTen
    cases h
    exact ⟨k, u, hLeast, hMost, hPos, of_decide_eq_true hSmall, rfl, hFrontName, hRest⟩
  · rintro ⟨k, u, hLeast, hMost, hPos, hSmall, rfl, hFrontName, hRest⟩
    have hUnit : unit? (String.ofList rest) = some u :=
      unit?_eq_some_iff.mpr ⟨hPos, by omega, hRest⟩
    have hTen : ten? (String.ofList front) = some (10 * k) :=
      ten?_eq_some_iff.mpr ⟨k, hLeast, hMost, rfl, hFrontName⟩
    rw [hUnit, hTen, Option.filter_some, if_pos (decide_eq_true hSmall)]
    rfl

theorem cardinal_of_lt (h : n < 20) : cardinal n = unitName n :=
  if_pos h

/-- A whole number of tens is called by the name of the tens alone. -/
theorem cardinal_tens {k : Nat} (h : 2 ≤ k) : cardinal (10 * k) = tenName k := by
  rw [cardinal, if_neg (by omega), if_pos (by omega), Nat.mul_div_cancel_left k (by decide)]

/-- Any other number from twenty on is called by its tens and its units, with a hyphen
between them. -/
theorem cardinal_tens_add {k u : Nat} (hTens : 2 ≤ k) (hPos : 1 ≤ u) (hSmall : u < 10) :
    cardinal (10 * k + u) = tenName k ++ "-" ++ unitName u := by
  have hTen : (10 * k + u) / 10 = k := by omega
  have hUnit : (10 * k + u) % 10 = u := by omega
  rw [cardinal, if_neg (by omega), if_neg (by omega), hTen, hUnit]

/-- A cardinal is read as its number, and no other word is. So every number up to
ninety-nine has one spelling in small letters. -/
theorem ofCardinal?_eq_some_iff :
    ofCardinal? word = some n ↔ 1 ≤ n ∧ n ≤ 99 ∧ word = cardinal n := by
  constructor
  · intro h
    by_cases hHyphen : '-' ∈ word.toList
    · obtain ⟨front, rest, hParts, hFront⟩ := List.eq_append_cons_of_mem hHyphen
      obtain rfl : word = String.ofList (front ++ '-' :: rest) := by
        rw [← hParts, String.ofList_toList]
      obtain ⟨k, u, hLeast, hMost, hPos, hSmall, rfl, hTen, hUnit⟩ :=
        (ofCardinal?_of_hyphen_iff hFront).mp h
      refine ⟨by omega, by omega, ?_⟩
      rw [cardinal_tens_add hLeast hPos hSmall, ← hTen, ← hUnit, ← String.toList_inj]
      simp
    · rw [ofCardinal?_of_no_hyphen hHyphen] at h
      rcases Option.or_eq_some_iff.mp h with hUnit | ⟨-, hTen⟩
      · obtain ⟨hPos, hSmall, hName⟩ := unit?_eq_some_iff.mp hUnit
        exact ⟨hPos, by omega, hName.trans (cardinal_of_lt hSmall).symm⟩
      · obtain ⟨k, hLeast, hMost, rfl, hName⟩ := ten?_eq_some_iff.mp hTen
        exact ⟨by omega, by omega, hName.trans (cardinal_tens hLeast).symm⟩
  · rintro ⟨hPos, hMost, rfl⟩
    -- one of the three forms of a name: a unit, one of the tens, or both around a hyphen
    by_cases hSmall : n < 20
    · rw [cardinal_of_lt hSmall, ofCardinal?_of_no_hyphen (hyphen_not_mem_unitName n),
        unit?_eq_some_iff.mpr ⟨hPos, hSmall, rfl⟩, Option.some_or]
    · obtain ⟨k, u, hUnit, rfl⟩ : ∃ k u, u < 10 ∧ n = 10 * k + u :=
        ⟨n / 10, n % 10, Nat.mod_lt n (by decide), (Nat.div_add_mod n 10).symm⟩
      have hLeast : 2 ≤ k := by omega
      rcases Nat.eq_zero_or_pos u with rfl | hUnitPos
      · have hTen : ten? (tenName k) = some (10 * k) :=
          ten?_eq_some_iff.mpr ⟨k, hLeast, by omega, rfl, rfl⟩
        rw [Nat.add_zero, cardinal_tens hLeast,
          ofCardinal?_of_no_hyphen (hyphen_not_mem_tenName k), hTen,
          unit?_tenName hLeast (by omega), Option.none_or]
      · have hParts : tenName k ++ "-" ++ unitName u =
            String.ofList ((tenName k).toList ++ '-' :: (unitName u).toList) := by
          rw [← String.toList_inj]
          simp
        rw [cardinal_tens_add hLeast hUnitPos hUnit, hParts,
          ofCardinal?_of_hyphen_iff (hyphen_not_mem_tenName k)]
        exact ⟨k, u, hLeast, by omega, hUnitPos, hUnit, rfl, String.ofList_toList,
          String.ofList_toList⟩

/-- Cardinals are in small letters. -/
theorem lower_cardinal (n : Nat) : Text.lower (cardinal n) = cardinal n := by
  have hUnit (u : Nat) := lower_of_isLower (all_isLower_unitName u)
  have hTen (k : Nat) := lower_of_isLower (all_isLower_tenName k)
  have hHyphen : Text.lower "-" = "-" := rfl
  unfold cardinal
  split_ifs
  · exact hUnit n
  · exact hTen (n / 10)
  · rw [Text.lower_append, Text.lower_append, hTen, hUnit, hHyphen]

/-- No name of a number consists of digits, so words that are digits and words that are
names are apart. -/
theorem not_all_isDigit_cardinal (hPos : 1 ≤ n) (hMost : n ≤ 99) :
    (cardinal n).toList.all Char.isDigit = false := by
  have hUnits : ∀ i < 19, (unitName (i + 1)).toList.all Char.isDigit = false := by decide
  have hTens : ∀ i < 8, (tenName (i + 2)).toList.all Char.isDigit = false := by decide
  unfold cardinal
  split_ifs with hSmall
  · obtain ⟨i, rfl⟩ := Nat.exists_eq_add_of_le' hPos
    exact hUnits i (by omega)
  all_goals
    obtain ⟨i, hi⟩ : ∃ i, n / 10 = i + 2 := ⟨n / 10 - 2, by omega⟩
    rw [hi]
  · exact hTens i (by omega)
  · simp only [String.toList_append, List.all_append, hTens i (by omega), Bool.false_and]

/-- A word is read as a number exactly where it consists of decimal digits and
has that positive value, of at most thirty-two bits, or where it is the English
cardinal of that number in letters of any case. -/
theorem ofWord?_iff_digits_or_cardinal (word : String) (n : Nat) :
    (ofWord? word).map UInt32.toNat = some n ↔
      ((word ≠ "" ∧ ∀ c ∈ word.toList, c.isDigit = true) ∧
        Text.decimalValue word.toList = n ∧ 1 ≤ n ∧ n ≤ 4294967295) ∨
      (1 ≤ n ∧ n ≤ 99 ∧ Text.sameLetters word (cardinal n) = true) := by
  have hName : Text.sameLetters word (cardinal n) = true ↔ Text.lower word = cardinal n := by
    rw [Text.sameLetters, lower_cardinal, beq_iff_eq]
  by_cases hDigits : ∀ c ∈ word.toList, c.isDigit = true
  · have hNoName : ¬ (1 ≤ n ∧ n ≤ 99 ∧ Text.sameLetters word (cardinal n) = true) := by
      rintro ⟨hPos, hMost, hSame⟩
      have hOther := not_all_isDigit_cardinal hPos hMost
      rw [← hName.mp hSame, all_isDigit_lower, List.all_eq_true.mpr hDigits] at hOther
      cases hOther
    rw [ofWord?_digits hDigits, Text.ofDigitChars_eq_decimalValue, ofNat?_eq_some_iff,
      or_iff_left hNoName]
    refine ⟨fun hValue => ⟨⟨?_, hDigits⟩, hValue⟩, fun hValue => hValue.2⟩
    rintro rfl
    obtain ⟨hZero, hPos, -⟩ := hValue
    have hNothing : Text.decimalValue "".toList = 0 := rfl
    omega
  · have hWord : ofWord? word = (ofCardinal? (Text.lower word)).bind ofNat? := by
      rw [ofWord?, if_neg]
      rwa [all_isDigit_lower, List.all_eq_true]
    rw [hWord, Option.map_bind, Option.bind_eq_some_iff,
      or_iff_right fun h => hDigits h.1.2]
    constructor
    · rintro ⟨m, hCardinal, hValue⟩
      obtain ⟨rfl, -, -⟩ := ofNat?_eq_some_iff.mp hValue
      obtain ⟨hPos, hMost, hSame⟩ := ofCardinal?_eq_some_iff.mp hCardinal
      exact ⟨hPos, hMost, hName.mpr hSame⟩
    · rintro ⟨hPos, hMost, hSame⟩
      exact ⟨n, ofCardinal?_eq_some_iff.mpr ⟨hPos, hMost, hName.mp hSame⟩,
        ofNat?_eq_some_iff.mpr ⟨rfl, hPos, by omega⟩⟩

example :
    ["0004294967295", "4294967296", "+1", "zero", "Forty-Two", "twenty-ten", "one-two-three"].map
      ofWord? = [some 4294967295, none, none, none, some 42, none, none] := by
  decide

end RoughCut.Numeral
