import RoughCut.Proofs.Json.ExactScaling
import RoughCut.Proofs.Json.WrittenShapes
import RoughCut.Proofs.Seconds.Order

/-!
Times that are written and read again. The shortest decimal of a time has few enough
digits for all of them to be gathered, so what is read is the scaled number that was
written, a finite time of the same sign next to the one it was written for, and the
same time if the scaling rounds but once.
-/

namespace RoughCut

open Json

namespace Json.Number

variable {ws fs cs : List Char} {e : Int}

/-- Digits before and after the point are gathered to the number they make together. -/
theorem magnitude?_map_digitByte (hWhole : ∀ c ∈ ws, c.isDigit = true)
    (hFraction : ∀ c ∈ fs, c.isDigit = true)
    (hLimit : Nat.ofDigitChars 10 (ws ++ fs) 0 ≤ gatherLimit) (e : Int) :
    magnitude? (ws.map digitByte) (fs.map digitByte) e =
      scale (Seconds.nearest (Nat.ofDigitChars 10 (ws ++ fs) 0) 1) (e - fs.length) := by
  rw [Nat.ofDigitChars_append] at hLimit ⊢
  rw [magnitude?, gather_map_digitByte hWhole ((le_ofDigitChars fs _).trans hLimit)]
  dsimp only
  rw [gather_map_digitByte hFraction hLimit]
  simp

/-- The digits of a power are read as what they are written for. -/
theorem foldl_digitValue (h : ∀ c ∈ cs, c.isDigit = true) (n : Nat) :
    (cs.map digitByte).foldl (fun n b => n * 10 + digitValue b) n = Nat.ofDigitChars 10 cs n := by
  induction cs generalizing n with
  | nil => rfl
  | cons c cs ih =>
      rw [List.map_cons, List.foldl_cons, Nat.ofDigitChars_cons,
        digitValue_digitByte (h c List.mem_cons_self), Nat.mul_comm]
      exact ih (fun d hd => h d (List.mem_cons_of_mem c hd)) _

end Json.Number

namespace Decimal

variable {d : Decimal}

/-- The integer that the digits of a decimal are gathered into and the power of ten
by which it is scaled. A whole number is written with a zero after the point. -/
def gathered (d : Decimal) : Nat × Int :=
  if d.power ≤ plainRange.most ∧ 0 ≤ d.exponent then
    (10 ^ (d.exponent.toNat + 1) * d.digits, -1)
  else (d.digits, d.exponent)

/-- What is gathered fits into fifty-three bits, and the power of ten does without
rounding. Ordinary times with up to fifteen digits are like this. -/
structure Short (d : Decimal) : Prop where
  digits : d.gathered.1 < 2 ^ 53
  least : -22 ≤ d.gathered.2
  most : d.gathered.2 ≤ 22

/-- A decimal is less than the power of ten with as many zeros as it has digits. -/
theorem digits_lt (d : Decimal) : d.digits < 10 ^ d.digitChars.length :=
  (Nat.length_toDigits_le_iff (by decide) d.length_digitChars_pos).mp (Nat.le_refl _)

/-- Digits of which there are at most seventeen are gathered into at most eighteen, be
it with a zero after the point. -/
theorem gathered_lt (h : d.digits < 10 ^ 17) : d.gathered.1 < 10 ^ 18 := by
  unfold gathered
  split_ifs with hWhole
  · obtain ⟨hPower, hExponent⟩ := hWhole
    have hLength := d.length_digitChars_pos
    have hPlaces : d.exponent.toNat + 1 + d.digitChars.length ≤ 17 := by
      have hMost : plainRange.most = 15 := rfl
      rw [power, hMost] at hPower
      omega
    calc 10 ^ (d.exponent.toNat + 1) * d.digits
        < 10 ^ (d.exponent.toNat + 1) * 10 ^ d.digitChars.length :=
          Nat.mul_lt_mul_of_pos_left d.digits_lt (Nat.pow_pos (by decide))
      _ = 10 ^ (d.exponent.toNat + 1 + d.digitChars.length) := (Nat.pow_add ..).symm
      _ ≤ 10 ^ 17 := Nat.pow_le_pow_right (by decide) hPlaces
      _ < 10 ^ 18 := by decide
  · exact h.trans (by decide)

/-- Eighteen digits fit into a machine word, so none of them is dropped. The shortest
decimal of a time has one digit less. -/
theorem le_gatherLimit {n : Nat} (h : n < 10 ^ 18) : n ≤ Number.gatherLimit :=
  Nat.le_of_lt (h.trans (by decide))

/-- A whole number is gathered with the zeros before its point and the one after it. -/
theorem ofDigitChars_extended (d : Decimal) :
    Nat.ofDigitChars 10 (d.digitChars ++ List.replicate d.exponent.toNat '0' ++ ['0']) 0 =
      10 ^ (d.exponent.toNat + 1) * d.digits := by
  rw [Nat.ofDigitChars_append, Nat.ofDigitChars_append, digitChars,
    Nat.ofDigitChars_ten_toDigits, Nat.ofDigitChars_replicate_zero, pow_succ]
  simp [Nat.ofDigitChars_cons]
  ring

/-- The zeros that come before a small fraction add nothing to what is gathered. -/
theorem ofDigitChars_padded (d : Decimal) : Nat.ofDigitChars 10 d.padded 0 = d.digits := by
  rw [padded, Nat.ofDigitChars_append, Nat.ofDigitChars_replicate_zero, Nat.mul_zero, digitChars,
    Nat.ofDigitChars_ten_toDigits]

/-- The plain form of a decimal is read by scaling what is gathered of it. -/
theorem magnitude?_plainSpelling (h : d.digits < 10 ^ 17)
    (hPower : d.power ≤ plainRange.most) :
    Number.magnitude? d.plainSpelling.whole (d.plainSpelling.fraction.getD [])
        (d.plainSpelling.exponent?.getD 0) =
      Number.scale (Seconds.nearest d.gathered.1 1) d.gathered.2 := by
  have hLimit := le_gatherLimit (gathered_lt h)
  rw [plainSpelling]
  split_ifs with hWhole
  · rw [gathered, if_pos ⟨hPower, hWhole⟩] at *
    have hZero : ∀ c ∈ ['0'], c.isDigit = true := fun c hc => by
      rw [List.mem_singleton.mp hc]
      decide
    have hMagnitude := Number.magnitude?_map_digitByte
      (fun _ => isDigit_of_mem_extended (d := d)) hZero
      ((ofDigitChars_extended d).trans_le hLimit) 0
    rw [ofDigitChars_extended] at hMagnitude
    exact hMagnitude
  · rw [gathered, if_neg (fun hBoth => hWhole hBoth.2)] at *
    have hPadded := d.length_padded
    let whole := d.padded.length - (-d.exponent).toNat
    have hMagnitude := Number.magnitude?_map_digitByte
      (fun c (hc : c ∈ d.padded.take whole) => isDigit_of_mem_padded (List.mem_of_mem_take hc))
      (fun c (hc : c ∈ d.padded.drop whole) => isDigit_of_mem_padded (List.mem_of_mem_drop hc))
      (by
        rw [List.take_append_drop]
        exact (ofDigitChars_padded d).trans_le hLimit) 0
    have hExponent : 0 - ((d.padded.drop whole).length : Int) = d.exponent := by
      rw [List.length_drop]
      omega
    rw [List.take_append_drop, ofDigitChars_padded, hExponent] at hMagnitude
    exact hMagnitude

/-- The exponent that is written is the place of the first digit. -/
theorem exponent?_scientificSpelling (d : Decimal) :
    d.scientificSpelling.exponent? = some d.power := by
  have hDigits : ∀ c ∈ Nat.toDigits 10 d.power.natAbs, c.isDigit = true :=
    fun c => Nat.isDigit_of_mem_toDigits (by decide) (by decide)
  rw [scientificSpelling, Number.Spelling.exponent?]
  simp only [Option.map_some, Number.foldl_digitValue hDigits, Nat.ofDigitChars_ten_toDigits,
    decide_eq_true_eq, Option.some.injEq]
  split_ifs <;> omega

/-- The form with an exponent is read by scaling what is gathered of it, where the
digits after the point make the exponent less. -/
theorem magnitude?_scientificSpelling (h : d.digits < 10 ^ 17)
    (hPower : ¬ (plainRange.least ≤ d.power ∧ d.power ≤ plainRange.most)) :
    Number.magnitude? d.scientificSpelling.whole (d.scientificSpelling.fraction.getD [])
        (d.scientificSpelling.exponent?.getD 0) =
      Number.scale (Seconds.nearest d.gathered.1 1) d.gathered.2 := by
  have hLength := d.length_digitChars_pos
  have hValue : Nat.ofDigitChars 10 d.digitChars 0 = d.digits := Nat.ofDigitChars_ten_toDigits
  have hGathered : d.gathered = (d.digits, d.exponent) := by
    refine if_neg fun hWhole => hPower ⟨?_, hWhole.1⟩
    have hLeast : plainRange.least = -5 := rfl
    rw [power, hLeast]
    omega
  have hFraction : d.scientificSpelling.fraction.getD [] = (d.digitChars.drop 1).map digitByte := by
    rw [scientificSpelling]
    dsimp only
    split_ifs with hOne
    · rw [List.drop_eq_nil_of_le hOne]
      rfl
    · rfl
  have hMagnitude := Number.magnitude?_map_digitByte
    (fun c (hc : c ∈ d.digitChars.take 1) => isDigit_of_mem_digitChars (List.mem_of_mem_take hc))
    (fun c (hc : c ∈ d.digitChars.drop 1) => isDigit_of_mem_digitChars (List.mem_of_mem_drop hc))
    (by
      rw [List.take_append_drop, hValue]
      exact le_gatherLimit (h.trans (by decide)))
    d.power
  have hExponent : d.power - ((d.digitChars.drop 1).length : Int) = d.exponent := by
    rw [power, List.length_drop]
    omega
  rw [List.take_append_drop, hValue, hExponent] at hMagnitude
  rw [hFraction, exponent?_scientificSpelling, hGathered]
  exact hMagnitude

/-- The text of a decimal with few digits is read by scaling what is gathered. -/
theorem magnitude?_spelling (h : d.digits < 10 ^ 17) :
    Number.magnitude? d.spelling.whole (d.spelling.fraction.getD [])
        (d.spelling.exponent?.getD 0) =
      Number.scale (Seconds.nearest d.gathered.1 1) d.gathered.2 := by
  rw [spelling]
  split_ifs with hPlain
  · exact magnitude?_plainSpelling h hPlain.2
  · exact magnitude?_scientificSpelling h hPlain

/-- What is gathered stands for the very number of the decimal. Zeros are added or left
out at both ends, and the exponent makes up for them. -/
theorem exactTicks_gathered (d : Decimal) :
    Seconds.exactTicks d.gathered.1 d.gathered.2 = Seconds.exactTicks d.digits d.exponent := by
  unfold gathered
  split_ifs with hWhole
  · have hExponent : ((d.exponent.toNat + 1 : Nat) : Int) + -1 = d.exponent := by omega
    rw [Seconds.exactTicks_ten_pow, hExponent]
  · rfl

/-- Digits that are not all zero are gathered into a number above zero. -/
theorem gathered_pos (h : 0 < d.digits) : 0 < d.gathered.1 := by
  unfold gathered
  split_ifs
  · exact Nat.mul_pos (Nat.pow_pos (by decide)) h
  · exact h

theorem gathered_zero (negative : Bool) : gathered ⟨negative, 0, 0⟩ = (0, -1) := by
  have hPower : power ⟨negative, 0, 0⟩ = 0 := by
    rw [power, digitChars_zero rfl]
    rfl
  refine if_pos ⟨?_, Int.le_refl 0⟩
  rw [hPower]
  decide

/-- A zero after the point does not change how far scaling may lead, since it is written
for whole numbers only. -/
theorem drift_gathered (d : Decimal) :
    Seconds.drift d.gathered.2 = Seconds.drift d.exponent := by
  unfold gathered Seconds.drift
  split_ifs <;> first | rfl | omega

end Decimal

namespace Seconds

open Json.Number (scale magnitude?)

variable {m d r : Nat} {k : Int} {x y : Seconds}

/-- The last two times, for which a product could leave the finite ones, do not. -/
theorem exists_scale_last (hLast : infiniteMagnitude ≤ m + 2) (hm : m < infiniteMagnitude)
    (h : shortestMagnitude m = (d, k)) :
    k = 292 ∧ ∃ r, scale (nearest d 1) k = some r ∧ r < infiniteMagnitude ∧ Near 2 r m := by
  have hReads : (shortestMagnitude (infiniteMagnitude - 1) = (17976931348623157, 292) ∧
        scale (nearest 17976931348623157 1) 292 = some (infiniteMagnitude - 1)) ∧
      shortestMagnitude (infiniteMagnitude - 2) = (17976931348623155, 292) ∧
        scale (nearest 17976931348623155 1) 292 = some (infiniteMagnitude - 1) := by
    decide +kernel
  obtain ⟨hFinal, hBefore⟩ := hReads
  have hPlace : m = infiniteMagnitude - 1 ∨ m = infiniteMagnitude - 2 := by omega
  rcases hPlace with rfl | rfl
  · rw [hFinal.1] at h
    cases h
    exact ⟨rfl, _, hFinal.2, by decide, ⟨by omega, by omega⟩⟩
  · rw [hBefore.1] at h
    cases h
    exact ⟨rfl, _, hBefore.2, by decide, ⟨by omega, by omega⟩⟩

/-- What is gathered from the shortest decimal of a time is scaled to a finite time
next to it. -/
theorem exists_scale_shortest (hPos : 0 < m) (hm : m < infiniteMagnitude) (negative : Bool)
    (h : shortestMagnitude m = (d, k)) :
    let gathered := Decimal.gathered ⟨negative, d, k⟩
    ∃ r, scale (nearest gathered.1 1) gathered.2 = some r ∧ r < infiniteMagnitude ∧
      Near (drift k) r m := by
  intro gathered
  obtain ⟨d', k', hShortest, hPoint, hDigitsPos, hDigits⟩ := shortestMagnitude_spec hPos hm
  obtain ⟨rfl, rfl⟩ := Prod.mk.inj (hShortest.symm.trans h)
  rcases Nat.lt_or_ge (m + 2) infiniteMagnitude with hInner | hLast
  · have hAround : Around m (exactTicks gathered.1 gathered.2) := by
      rw [Decimal.exactTicks_gathered]
      exact around_of_onGrid hPos hPoint.onGrid
    obtain ⟨r, hScale, hFinite, hNear⟩ := exists_scale (Decimal.gathered_pos hDigitsPos)
      (Decimal.gathered_lt hDigits) hm (fun _ => hInner) hAround
    rw [Decimal.drift_gathered] at hNear
    exact ⟨r, hScale, hFinite, hNear⟩
  · obtain ⟨rfl, hScale⟩ := exists_scale_last hLast hm h
    have hGathered : gathered = (d', 292) := by
      refine if_neg fun hWhole => ?_
      have hLength := Decimal.length_digitChars_pos ⟨negative, d', 292⟩
      have hPower := hWhole.1
      have hMost : plainRange.most = 15 := rfl
      rw [Decimal.power, hMost] at hPower
      dsimp only at hPower
      omega
    rw [hGathered]
    exact hScale

theorem magnitude_ofMagnitude (negative : Bool) (h : m < Nat.pow 2 63) :
    (ofMagnitude negative m).magnitude = m := by
  have hPower : Nat.pow 2 63 = 9223372036854775808 := rfl
  unfold ofMagnitude magnitude
  rw [hPower] at h ⊢
  cases negative <;> simp [UInt64.toNat_ofNat'] <;> omega

theorem isNegative_ofMagnitude (negative : Bool) (h : m < Nat.pow 2 63) :
    (ofMagnitude negative m).isNegative = negative := by
  have hPower : Nat.pow 2 63 = 9223372036854775808 := rfl
  unfold ofMagnitude isNegative
  rw [hPower] at h ⊢
  cases negative <;> simp [UInt64.toNat_ofNat'] <;> omega

/-- A time is told by its sign and its magnitude. -/
theorem eq_of_magnitude_eq (hSign : x.isNegative = y.isNegative)
    (hMagnitude : x.magnitude = y.magnitude) : x = y :=
  eq_of_order_eq (by rw [order, order, hSign, hMagnitude])

/-- A time is finite, has the sign of another and is a few neighbours away from it at
most, none of them if the other is written with few digits. -/
structure Beside (x y : Seconds) : Prop where
  finite : y.isFinite = true
  sign : y.isNegative = x.isNegative
  near : Near (drift x.shortest.exponent) y.magnitude x.magnitude
  same : x.shortest.Short → y = x

/-- A finite time is read as what its shortest digits and its sign are read as. -/
theorem reading_of_spelled (hFinite : x.isFinite = true)
    (h : x.shortest.spelling.number x.isNegative = .ok (.decimal y)) : x.reading = .ok y := by
  have hOpening := opening_chars hFinite []
  have hRead := read_chars hFinite (r := []) (fun b hb => by cases hb)
  rw [List.append_nil] at hOpening
  rw [reading, Shape.readText, Text.Utf8.encode_ofList, Shape.read,
    Reader.byKind_of_opening _ hOpening]
  change ((Number.read x.isNegative (x.shortest.spelling.bytes ++ []) >>=
    fun p => pure (p.1.toSeconds, p.2)) >>= _) = _
  rw [hRead, h]
  rfl

/-- The shortest decimal of a finite time has seventeen digits at most. -/
theorem digits_shortest_lt (h : x.isFinite = true) : x.shortest.digits < 10 ^ 17 := by
  unfold shortest
  split_ifs with hZero
  · exact Nat.pow_pos (by decide)
  · obtain ⟨d, k, hShortest, -, -, hDigits⟩ :=
      shortestMagnitude_spec (Nat.pos_of_ne_zero hZero) (of_decide_eq_true h)
    rw [hShortest]
    exact hDigits

/-- What is gathered from the text of a finite time is scaled to a time next to it. A
short decimal is scaled to the time itself. -/
theorem exists_scale_gathered (h : x.isFinite = true) :
    ∃ r, scale (nearest x.shortest.gathered.1 1) x.shortest.gathered.2 = some r ∧
      r < infiniteMagnitude ∧ Near (drift x.shortest.exponent) r x.magnitude ∧
      (x.shortest.Short → r = x.magnitude) := by
  have hFinite : x.magnitude < infiniteMagnitude := of_decide_eq_true h
  unfold shortest
  split_ifs with hZero
  · have hNearest : nearest 0 1 = 0 := by
      rw [nearest_eq, Nat.zero_mul]
      rfl
    rw [hZero, Decimal.gathered_zero, hNearest]
    exact ⟨0, if_pos rfl, by decide, ⟨Nat.zero_le _, Nat.zero_le _⟩, fun _ => rfl⟩
  · have hPos := Nat.pos_of_ne_zero hZero
    obtain ⟨d, k, hShortest, hPoint, hDigits, -⟩ := shortestMagnitude_spec hPos hFinite
    rw [hShortest]
    obtain ⟨r, hScale, hNear⟩ := exists_scale_shortest hPos hFinite x.isNegative hShortest
    refine ⟨r, hScale, hNear.1, hNear.2, fun hShort => ?_⟩
    have hExact := scale_exact (Decimal.gathered_pos hDigits) hShort.digits hShort.least
      hShort.most hFinite hPoint (Decimal.exactTicks_gathered _)
    exact Option.some.inj (hScale.symm.trans hExact)

/-- The text of every finite time is read, as a time beside it. The readers round in
more than one step, so it need not be the same time. -/
theorem exists_reading (h : x.isFinite = true) : ∃ y, x.reading = .ok y ∧ Beside x y := by
  obtain ⟨r, hScale, hFinite, hNear, hSame⟩ := exists_scale_gathered h
  have hPlace : r < Nat.pow 2 63 := by
    have hLimit : infiniteMagnitude < Nat.pow 2 63 := by decide
    omega
  have hMagnitude := magnitude_ofMagnitude x.isNegative hPlace
  have hSign := isNegative_ofMagnitude x.isNegative hPlace
  refine ⟨ofMagnitude x.isNegative r, reading_of_spelled h ?_, ?_, hSign, ?_, ?_⟩
  · rw [Decimal.number_spelling, Number.ofDigits,
      Decimal.magnitude?_spelling (digits_shortest_lt h), hScale]
    rfl
  · rw [isFinite, hMagnitude]
    exact decide_eq_true hFinite
  · rw [hMagnitude]
    exact hNear
  · exact fun hShort => eq_of_magnitude_eq hSign (hMagnitude.trans (hSame hShort))

/-- The text of every finite time can be read again. -/
theorem reading_of_isFinite (h : x.isFinite = true) : x.reading = .ok x.reread := by
  obtain ⟨y, hReading, -⟩ := exists_reading h
  exact reading_eq_reread hReading

end Seconds

end RoughCut
