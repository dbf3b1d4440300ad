import RoughCut.Proofs.Json.ReadTimes

/-!
The time nearest to a number. It is told by its distance from zero: no other time, the
infinite one in the place of the power of two after the last among them, lies nearer,
and of two that are equally near it is the even one.
-/

namespace RoughCut.Seconds

variable {m n num den : Nat} {v : ℚ} {x y : Seconds}

/-- The number of seconds for which a magnitude stands. Infinity stands for the power
of two that would come after the last finite time. -/
def distance (m : Nat) : ℚ :=
  ticks m / second

theorem distance_zero : distance 0 = 0 := by
  have hNone : ticks 0 = 0 := rfl
  rw [distance, hNone, Nat.cast_zero, zero_div]

theorem distance_one : distance 1 = 1 / second := by
  have hFirst : ticks 1 = 1 := rfl
  rw [distance, hFirst, Nat.cast_one]

/-- No time is nearer to the number, and the even one is taken of two that are equally
near. -/
structure IsNearest (v : ℚ) (m : Nat) : Prop where
  inRange : m ≤ infiniteMagnitude
  least : ∀ n ≤ infiniteMagnitude, |distance m - v| ≤ |distance n - v|
  even : ∀ n ≤ infiniteMagnitude, n ≠ m → |distance n - v| = |distance m - v| → m % 2 = 0

/-- The greater of two magnitudes stands for the greater number. -/
theorem distance_strictMono : StrictMono distance := fun m n h => by
  have hTicks : (ticks m : ℚ) < ticks n := by exact_mod_cast ticks_strictMono h
  exact div_lt_div_of_pos_right hTicks second_cast_pos

/-- What is not beyond the middle between two numbers is not nearer to the second, and
as near only in the middle. -/
theorem abs_sub_le_of_midpoint {a b : ℚ} (hab : a < b) (h : 2 * v ≤ a + b) :
    |a - v| ≤ |b - v| ∧ (|b - v| = |a - v| → 2 * v = a + b) := by
  have hRight : |b - v| = b - v := abs_of_nonneg (by linarith)
  rw [hRight]
  rcases abs_cases (a - v) with ⟨hLeft, -⟩ | ⟨hLeft, -⟩ <;> rw [hLeft]
  · exact ⟨by linarith, fun hSame => by linarith⟩
  · exact ⟨by linarith, fun hSame => by linarith⟩

/-- Of two numbers the greater one is nearer to all that is not below the middle between
them, and only in the middle both are equally near. -/
theorem abs_sub_le_of_midpoint' {a b : ℚ} (hab : a < b) (h : a + b ≤ 2 * v) :
    |b - v| ≤ |a - v| ∧ (|a - v| = |b - v| → 2 * v = a + b) := by
  have hMirror := abs_sub_le_of_midpoint (v := -v) (neg_lt_neg hab) (by linarith)
  rw [← abs_neg (b - v), ← abs_neg (a - v)]
  have hb : -b - -v = -(b - v) := by ring
  have ha : -a - -v = -(a - v) := by ring
  rw [hb, ha] at hMirror
  exact ⟨hMirror.1, fun hSame => by linarith [hMirror.2 hSame]⟩

/-- A magnitude between the middles to its two neighbours is nearest, if it is even where
the number lies in one of them. -/
theorem isNearest_of_midpoints (hm : m ≤ infiniteMagnitude)
    (hUpper : m < infiniteMagnitude → 2 * v ≤ distance m + distance (m + 1) ∧
      (2 * v = distance m + distance (m + 1) → m % 2 = 0))
    (hLower : 0 < m → distance (m - 1) + distance m ≤ 2 * v ∧
      (2 * v = distance (m - 1) + distance m → m % 2 = 0)) : IsNearest v m := by
  have hNear : ∀ n ≤ infiniteMagnitude, n ≠ m → |distance m - v| ≤ |distance n - v| ∧
      (|distance n - v| = |distance m - v| → m % 2 = 0) := by
    intro n hn hOther
    rcases Nat.lt_or_gt_of_ne hOther with hBelow | hAbove
    · obtain ⟨hMiddle, hTie⟩ := hLower (by omega)
      have hBefore : distance n ≤ distance (m - 1) := distance_strictMono.monotone (by omega)
      obtain ⟨hLeast, hSame⟩ :=
        abs_sub_le_of_midpoint' (v := v) (distance_strictMono hBelow) (by linarith)
      refine ⟨hLeast, fun hEqual => hTie ?_⟩
      linarith [hSame hEqual]
    · obtain ⟨hMiddle, hTie⟩ := hUpper (by omega)
      have hAfter : distance (m + 1) ≤ distance n := distance_strictMono.monotone hAbove
      obtain ⟨hLeast, hSame⟩ :=
        abs_sub_le_of_midpoint (v := v) (distance_strictMono hAbove) (by linarith)
      refine ⟨hLeast, fun hEqual => hTie ?_⟩
      linarith [hSame hEqual]
  refine ⟨hm, fun n hn => ?_, fun n hn hOther => (hNear n hn hOther).2⟩
  by_cases hOther : n = m
  · rw [hOther]
  · exact (hNear n hn hOther).1

/-- No number has two nearest times. Of two that are equally near one is odd, unless
there is a nearer one between them. -/
theorem IsNearest.not_lt (h : IsNearest v m) (hn : IsNearest v n) : ¬ m < n := by
  intro hBelow
  have hSame : |distance n - v| = |distance m - v| :=
    le_antisymm (hn.least m h.inRange) (h.least n hn.inRange)
  have hFar := distance_strictMono hBelow
  have hMiddle : 2 * v = distance m + distance n := by
    rcases abs_eq_abs.mp hSame with hEqual | hEqual <;> linarith
  by_cases hNext : n = m + 1
  · have hFirst := h.even n hn.inRange (by omega) hSame
    have hSecond := hn.even m h.inRange (by omega) hSame.symm
    omega
  · -- a time between the two would be nearer than either
    have hAfter : distance m < distance (m + 1) := distance_strictMono (Nat.lt_succ_self m)
    have hBefore : distance (m + 1) < distance n := distance_strictMono (by omega)
    have hLeast := h.least (m + 1) (by have := hn.inRange; omega)
    have hLeft : |distance m - v| = v - distance m := by
      rw [abs_of_nonpos (by linarith)]
      ring
    rw [hLeft] at hLeast
    have hNearer : |distance (m + 1) - v| < v - distance m :=
      abs_lt.mpr ⟨by linarith, by linarith⟩
    linarith

/-- There is one nearest time. -/
theorem IsNearest.eq (h : IsNearest v m) (hn : IsNearest v n) : m = n :=
  Nat.le_antisymm (Nat.le_of_not_lt (hn.not_lt h)) (Nat.le_of_not_lt (h.not_lt hn))

theorem distance_add (m n : Nat) :
    distance m + distance n = ((ticks m + ticks n : Nat) : ℚ) / second := by
  rw [distance, distance, ← add_div, Nat.cast_add]

theorem double_quotient (num den : Nat) :
    2 * ((num : ℚ) / (den * second)) = ((2 * num : Nat) : ℚ) / den / second := by
  rw [← div_div, Nat.cast_mul, Nat.cast_ofNat, mul_div_assoc, mul_div_assoc]

/-- A quotient of seconds is not above the middle between two times exactly if this
holds of whole ticks. -/
theorem double_quotient_le (hDen : 0 < den) (m n : Nat) :
    2 * ((num : ℚ) / (den * second)) ≤ distance m + distance n ↔
      2 * num ≤ (ticks m + ticks n) * den := by
  have hCast : (0 : ℚ) < den := Nat.cast_pos.mpr hDen
  rw [distance_add, double_quotient, div_le_div_iff_of_pos_right second_cast_pos, div_le_iff₀ hCast]
  exact_mod_cast Iff.rfl

/-- A quotient of seconds is not below the middle between two times exactly if this
holds of whole ticks. -/
theorem le_double_quotient (hDen : 0 < den) (m n : Nat) :
    distance m + distance n ≤ 2 * ((num : ℚ) / (den * second)) ↔
      (ticks m + ticks n) * den ≤ 2 * num := by
  have hCast : (0 : ℚ) < den := Nat.cast_pos.mpr hDen
  rw [distance_add, double_quotient, div_le_div_iff_of_pos_right second_cast_pos, le_div_iff₀ hCast]
  exact_mod_cast Iff.rfl

/-- Rounding a quotient of ticks gives the time nearest to it. -/
theorem isNearest_nearestTicks (num : Nat) (hDen : 0 < den) :
    IsNearest (num / (den * second)) (nearestTicks num den) := by
  have hRange : nearestTicks num den ≤ infiniteMagnitude := by
    unfold nearestTicks
    exact Nat.min_le_left _ _
  -- had a middle been passed, the neighbour behind it would have been taken
  generalize hm : nearestTicks num den = m at hRange
  refine isNearest_of_midpoints hRange (fun hFinite => ?_) (fun hPos => ?_)
  · rw [double_quotient_le hDen]
    refine ⟨?_, fun hTie => ?_⟩
    · by_contra hBeyond
      have hNext : m + 1 ≤ nearestTicks num den := by
        refine le_nearestTicks hDen hFinite ?_
        rw [Nat.add_sub_cancel]
        exact Nat.lt_of_not_le hBeyond
      omega
    · by_contra hOdd
      have hNext : m + 1 ≤ nearestTicks num den := by
        refine le_nearestTicks_of_even hDen hFinite (by omega) ?_
        rw [Nat.add_sub_cancel]
        exact (le_double_quotient hDen m (m + 1)).mp hTie.symm.le
      omega
  · obtain ⟨k, rfl⟩ : ∃ k, m = k + 1 := ⟨m - 1, by omega⟩
    rw [Nat.add_sub_cancel, le_double_quotient hDen]
    refine ⟨?_, fun hTie => ?_⟩
    · by_contra hBelow
      have hBefore : nearestTicks num den ≤ k := nearestTicks_le hDen (Nat.lt_of_not_le hBelow)
      omega
    · by_contra hOdd
      have hReached := (double_quotient_le hDen k (k + 1)).mp hTie.le
      have hBefore : nearestTicks num den ≤ k :=
        nearestTicks_le_of_even hDen (by omega) hReached
      omega

/-- Zero is nearest to all that is at most half of the smallest time. -/
theorem isNearest_zero (h : 2 * v ≤ distance 1) : IsNearest v 0 := by
  refine isNearest_of_midpoints (Nat.zero_le _) (fun _ => ⟨?_, fun _ => rfl⟩) (fun hPos => ?_)
  · rw [distance_zero, zero_add, zero_add]
    exact h
  · cases hPos

/-- What is not below the power of two after the last finite time is infinite. That
power takes the place of one more finite time when distances are compared. -/
theorem isNearest_infinite (h : distance infiniteMagnitude ≤ v) :
    IsNearest v infiniteMagnitude := by
  refine isNearest_of_midpoints (Nat.le_refl _) (fun hLess => ?_) (fun _ => ⟨?_, fun _ => rfl⟩)
  · exact absurd hLess (Nat.lt_irrefl _)
  · have hBefore : distance (infiniteMagnitude - 1) ≤ distance infiniteMagnitude :=
      distance_strictMono.monotone (Nat.sub_le _ _)
    linarith

/-- A quotient is rounded to the time that is nearest to it, the even one of two. -/
theorem isNearest_nearest (num : Nat) (hDen : 0 < den) :
    IsNearest (num / den) (nearest num den) := by
  have hTicks := isNearest_nearestTicks (num * second) hDen
  rwa [Nat.cast_mul, mul_div_mul_right _ _ second_cast_pos.ne', ← nearest_eq] at hTicks

/-- How many tenths or tens of a second make up what is surely nothing or surely
infinite. -/
theorem second_bounds : 2 * second ≤ 10 ^ 326 ∧ ticks infiniteMagnitude ≤ 10 ^ 310 * second := by
  decide +kernel

end RoughCut.Seconds

namespace RoughCut.Decimal

open Seconds

/-- The distance from zero of a decimal. -/
def size (d : Decimal) : ℚ :=
  d.digits * (10 : ℚ) ^ d.exponent

/-- The bounds below and above which no power of ten is formed are far enough out. So a
decimal is rounded correctly whatever its exponent is. -/
theorem isNearest_magnitude (d : Decimal) : IsNearest d.size (magnitude d.digits d.exponent) := by
  have hTen : (0 : ℚ) < 10 := by norm_num
  unfold magnitude size
  split_ifs with hNone hHuge hTiny
  · refine isNearest_zero ?_
    rw [hNone, Nat.cast_zero, zero_mul, mul_zero]
    exact div_nonneg (Nat.cast_nonneg _) second_cast_pos.le
  · refine isNearest_infinite ?_
    have hDigits : (1 : ℚ) ≤ d.digits := by exact_mod_cast Nat.pos_of_ne_zero hNone
    have hTicks : (ticks infiniteMagnitude : ℚ) ≤ 10 ^ 310 * second := by
      exact_mod_cast second_bounds.2
    calc distance infiniteMagnitude ≤ 10 ^ 310 := (div_le_iff₀ second_cast_pos).mpr hTicks
      _ = (10 : ℚ) ^ (310 : Int) := (zpow_natCast 10 310).symm
      _ ≤ 10 ^ d.exponent := zpow_le_zpow_right₀ (by norm_num) hHuge
      _ ≤ d.digits * 10 ^ d.exponent := le_mul_of_one_le_left (zpow_pos hTen _).le hDigits
  · refine isNearest_zero ?_
    have hDigits : (d.digits : ℚ) ≤ 10 ^ (d.digitChars.length : Int) := by
      rw [zpow_natCast]
      exact_mod_cast (digits_lt d).le
    have hSecond : (2 : ℚ) * second ≤ 10 ^ 326 := by exact_mod_cast second_bounds.1
    calc 2 * ((d.digits : ℚ) * 10 ^ d.exponent)
        ≤ 2 * (10 ^ (d.digitChars.length : Int) * 10 ^ d.exponent) := by
          have hPower := zpow_pos hTen d.exponent
          nlinarith
      _ = 2 * 10 ^ (d.digitChars.length + d.exponent) := by rw [zpow_add₀ hTen.ne']
      _ ≤ 2 * 10 ^ (-326 : Int) := by
          have hLast : (d.digitChars.length : Int) + d.exponent ≤ -326 := by
            rw [digitChars]
            omega
          have hPower := zpow_le_zpow_right₀ (by norm_num : (1 : ℚ) ≤ 10) hLast
          linarith
      _ = 2 / 10 ^ 326 := by rw [zpow_neg, div_eq_mul_inv]; rfl
      _ ≤ distance 1 := by
          rw [distance_one, div_le_div_iff₀ (by positivity) second_cast_pos, one_mul]
          exact hSecond
  · have hPower : 0 < 10 ^ (-d.exponent).toNat := Nat.pow_pos (by decide)
    have hNearest := isNearest_nearest (d.digits * 10 ^ d.exponent.toNat) hPower
    have hSize : ((d.digits * 10 ^ d.exponent.toNat : Nat) : ℚ) / (10 ^ (-d.exponent).toNat : Nat) =
        d.digits * 10 ^ d.exponent := by
      push_cast
      obtain ⟨k, hSign | hSign⟩ := d.exponent.eq_nat_or_neg
      · simp [hSign]
      · simp [hSign, div_eq_mul_inv]
    rw [hSize] at hNearest
    exact hNearest

/-- A time with the sign of a decimal than which none is nearer to it. -/
structure RoundsTo (d : Decimal) (x : Seconds) : Prop where
  sign : x.isNegative = d.negative
  nearest : IsNearest d.size x.magnitude

/-- The digits of a decimal are rounded to the time that is nearest to the number they
stand for, with the sign of the decimal. -/
theorem roundsTo_nearest (d : Decimal) : d.RoundsTo d.nearest := by
  have hNearest := d.isNearest_magnitude
  have hLimit : infiniteMagnitude < Nat.pow 2 63 := by decide
  have hRange := hNearest.inRange.trans_lt hLimit
  refine ⟨isNegative_ofMagnitude _ hRange, ?_⟩
  rw [Decimal.nearest, magnitude_ofMagnitude _ hRange]
  exact hNearest

/-- A decimal is rounded correctly, and so only one way. -/
theorem roundsTo_iff {d : Decimal} {x : Seconds} : d.RoundsTo x ↔ x = d.nearest := by
  constructor
  · intro h
    have hNearest := d.roundsTo_nearest
    exact eq_of_magnitude_eq (h.sign.trans hNearest.sign.symm) (h.nearest.eq hNearest.nearest)
  · rintro rfl
    exact d.roundsTo_nearest

end RoughCut.Decimal
