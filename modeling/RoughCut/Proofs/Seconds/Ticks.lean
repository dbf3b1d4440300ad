import Mathlib.Tactic.Common
import Mathlib.Tactic.Ring
import Mathlib.Tactic.Linarith
import Mathlib.Order.Monotone.Basic
import RoughCut.Seconds.Rounding

/-!
The line of ticks. From one magnitude to the next the distance from zero grows
by a gap that only ever doubles, and a quotient is rounded to a magnitude that
has it between the midpoints to its two neighbours.
-/

namespace RoughCut.Seconds

variable {m n : Nat}

/-- The ticks from a magnitude to the next. -/
def gap (m : Nat) : Nat :=
  2 ^ (m / 2 ^ 52 - 1)

theorem gap_pos (m : Nat) : 0 < gap m :=
  Nat.two_pow_pos _

/-- Times lie no closer to each other the greater they are. -/
theorem gap_mono (h : m ≤ n) : gap m ≤ gap n :=
  Nat.pow_le_pow_right (by decide) (Nat.sub_le_sub_right (Nat.div_le_div_right h) 1)

/-- A magnitude with its exponent and its fraction apart. -/
theorem ticks_of_parts {e f : Nat} (h : f < 2 ^ 52) :
    ticks (e * 2 ^ 52 + f) = if e = 0 then f else (2 ^ 52 + f) * 2 ^ (e - 1) := by
  have hExponent : (e * 2 ^ 52 + f) / 2 ^ 52 = e := by omega
  have hFraction : (e * 2 ^ 52 + f) % 2 ^ 52 = f := by omega
  simp only [ticks, Nat.pow_eq, hExponent, hFraction]

/-- The gap after a time is told by its exponent alone. -/
theorem gap_of_parts {e f : Nat} (h : f < 2 ^ 52) : gap (e * 2 ^ 52 + f) = 2 ^ (e - 1) := by
  have hExponent : (e * 2 ^ 52 + f) / 2 ^ 52 = e := by omega
  rw [gap, hExponent]

/-- A magnitude is an exponent and a fraction of fifty-two bits. -/
theorem exists_parts (m : Nat) : ∃ e f, f < 2 ^ 52 ∧ m = e * 2 ^ 52 + f :=
  ⟨m / 2 ^ 52, m % 2 ^ 52, Nat.mod_lt _ (by decide), by omega⟩

/-- From one magnitude to the next there are just the ticks of the gap. -/
theorem ticks_succ (m : Nat) : ticks (m + 1) = ticks m + gap m := by
  obtain ⟨e, f, hf, rfl⟩ := exists_parts m
  rw [ticks_of_parts hf, gap_of_parts hf]
  by_cases hNext : f + 1 < 2 ^ 52
  · rw [Nat.add_assoc, ticks_of_parts hNext]
    split_ifs with he
    · simp [he]
    · ring
  · -- the last fraction of an exponent, after which the next exponent begins
    have hLast : f = 2 ^ 52 - 1 := by omega
    have hCarry : e * 2 ^ 52 + f + 1 = (e + 1) * 2 ^ 52 + 0 := by omega
    rw [hCarry, ticks_of_parts (by decide), if_neg (Nat.succ_ne_zero e), Nat.add_sub_cancel]
    cases e with
    | zero => simp [hLast]
    | succ e =>
        simp only [hLast, Nat.add_eq_zero_iff, one_ne_zero, and_false, if_false,
          Nat.add_sub_cancel, pow_succ]
        ring

/-- The order of magnitudes is that of the numbers they stand for. So times may be
compared without a look at their exponents. -/
theorem ticks_strictMono : StrictMono ticks :=
  strictMono_nat_of_lt_succ fun m => by
    have hGap := gap_pos m
    rw [ticks_succ]
    omega

/-- A magnitude is told to within the last of its fifty-three bits. -/
theorem ticks_succ_le (m : Nat) : ticks (m + 1) ≤ 2 ^ 53 * gap m := by
  obtain ⟨e, f, hf, rfl⟩ := exists_parts m
  rw [ticks_succ, ticks_of_parts hf, gap_of_parts hf]
  cases e with
  | zero => simp; omega
  | succ e =>
      have hBits : 2 ^ 52 + f + 1 ≤ 2 ^ 53 := by omega
      calc (2 ^ 52 + f) * 2 ^ (e + 1 - 1) + 2 ^ (e + 1 - 1)
          = (2 ^ 52 + f + 1) * 2 ^ (e + 1 - 1) := by ring
        _ ≤ 2 ^ 53 * 2 ^ (e + 1 - 1) := Nat.mul_le_mul_right _ hBits

/-- But for zero, no time is less than the gap that follows it. -/
theorem gap_le_ticks (hm : 0 < m) : gap m ≤ ticks m := by
  obtain ⟨e, f, hf, rfl⟩ := exists_parts m
  rw [ticks_of_parts hf, gap_of_parts hf]
  split_ifs with he
  · simp only [he, Nat.zero_sub, pow_zero, Nat.zero_mul, Nat.zero_add] at hm ⊢
    exact hm
  · exact Nat.le_mul_of_pos_left _ (by omega)

/-- Counting whole gaps from zero leads to the magnitude with so many of them. -/
theorem ticks_of_steps {step r : Nat} (hHigh : r ≤ 2 ^ 53) (hLow : step = 0 ∨ 2 ^ 52 ≤ r) :
    ticks (step * 2 ^ 52 + r) = r * 2 ^ step := by
  rcases Nat.lt_or_ge r (2 ^ 52) with hSmall | hLarge
  · obtain rfl : step = 0 := by omega
    rw [ticks_of_parts hSmall, if_pos rfl, pow_zero, Nat.mul_one]
  · obtain ⟨f, rfl⟩ := Nat.exists_eq_add_of_le hLarge
    rcases Nat.lt_or_ge f (2 ^ 52) with hInside | hEnd
    · have hParts : step * 2 ^ 52 + (2 ^ 52 + f) = (step + 1) * 2 ^ 52 + f := by ring
      rw [hParts, ticks_of_parts hInside, if_neg (Nat.succ_ne_zero step), Nat.add_sub_cancel]
    · obtain rfl : f = 2 ^ 52 := by omega
      have hParts : step * 2 ^ 52 + (2 ^ 52 + 2 ^ 52) = (step + 2) * 2 ^ 52 + 0 := by ring
      rw [hParts, ticks_of_parts (by decide), if_neg (by omega)]
      simp only [Nat.add_one_sub_one, pow_succ]
      ring

/-- A quotient is rounded to a whole number at most one half away from it. -/
theorem roundDiv_bounds (num : Nat) {den : Nat} (hDen : 0 < den) :
    2 * roundDiv num den * den ≤ 2 * num + den ∧ 2 * num ≤ (2 * roundDiv num den + 1) * den := by
  have hParts : den * (num / den) + num % den = num := Nat.div_add_mod num den
  have hRest := Nat.mod_lt num hDen
  unfold roundDiv
  dsimp only
  generalize num / den = q at *
  generalize num % den = r at *
  subst hParts
  have hMore : 2 * (q + 1) * den = 2 * (den * q) + 2 * den := by ring
  split_ifs with h
  · have hTie : 2 * r ≤ den := by omega
    constructor <;> linarith
  · have hTie : den ≤ 2 * r := by omega
    constructor <;> linarith

/-- A half is rounded to an even number. There are two whole numbers at that distance,
and one of them is even. -/
theorem roundDiv_even {num den : Nat} (hDen : 0 < den)
    (h : 2 * num = (2 * roundDiv num den + 1) * den ∨
      2 * roundDiv num den * den = 2 * num + den) : roundDiv num den % 2 = 0 := by
  have hParts : den * (num / den) + num % den = num := Nat.div_add_mod num den
  have hRest := Nat.mod_lt num hDen
  unfold roundDiv at *
  dsimp only at *
  generalize num / den = q at *
  generalize num % den = r at *
  subst hParts
  split_ifs at h ⊢ with hDown
  · rcases h with hHalf | hAbove
    · have hTie : 2 * r = den := by linarith
      omega
    · have : 2 * r + den = 0 := by linarith
      omega
  · rcases h with hBelow | hHalf
    · have : 2 * r = 3 * den := by linarith
      omega
    · have hTie : 2 * r = den := by linarith
      omega

/-- How a quotient is rounded: to a number of whole gaps, fifty-three bits of it
where the quotient has so many, and an even number of them where it lies halfway. -/
structure RoundedTo (num den step r : Nat) : Prop where
  below : 2 * r * (den * 2 ^ step) ≤ 2 * num + den * 2 ^ step
  above : 2 * num ≤ (2 * r + 1) * (den * 2 ^ step)
  high : num < 2 ^ 53 * (den * 2 ^ step)
  low : step = 0 ∨ 2 ^ 52 * (den * 2 ^ step) ≤ num
  even : (2 * num = (2 * r + 1) * (den * 2 ^ step) ∨
    2 * r * (den * 2 ^ step) = 2 * num + den * 2 ^ step) → r % 2 = 0

/-- The ticks of a quotient are rounded to whole gaps, and become infinite only where
that is too much. -/
theorem exists_roundedTo (num : Nat) {den : Nat} (hDen : 0 < den) :
    ∃ step r, RoundedTo num den step r ∧
      nearestTicks num den = min infiniteMagnitude (step * 2 ^ 52 + r) := by
  set step := (num / den).log2 - 52 with hStep
  have hUnit : 0 < den * 2 ^ step := Nat.mul_pos hDen (Nat.two_pow_pos _)
  obtain ⟨hBelow, hAbove⟩ := roundDiv_bounds num hUnit
  refine ⟨step, roundDiv num (den * 2 ^ step), ⟨hBelow, hAbove, ?_, ?_, roundDiv_even hUnit⟩, ?_⟩
  · have hQuotient : num / den < 2 ^ (step + 53) :=
      Nat.lt_of_lt_of_le Nat.lt_log2_self (Nat.pow_le_pow_right (by decide) (by omega))
    calc num < 2 ^ (step + 53) * den := (Nat.div_lt_iff_lt_mul hDen).mp hQuotient
      _ = 2 ^ 53 * (den * 2 ^ step) := by ring
  · rcases Nat.eq_zero_or_pos step with hZero | hPos
    · exact Or.inl hZero
    · have hQuotient : 2 ^ (step + 52) ≤ num / den := by
        have hNonzero : num / den ≠ 0 := by
          rintro hZero
          simp [hZero] at hStep
          omega
        exact (Nat.le_log2 hNonzero).mp (by omega)
      refine Or.inr ?_
      calc 2 ^ 52 * (den * 2 ^ step) = 2 ^ (step + 52) * den := by ring
        _ ≤ num := (Nat.le_div_iff_mul_le hDen).mp hQuotient
  · simp only [nearestTicks, Nat.pow_eq, hStep]

namespace RoundedTo

variable {num den step r : Nat}

/-- A quotient of fifty-three bits may be rounded up to the next power of two, and not
further. -/
theorem le_high (h : RoundedTo num den step r) (hDen : 0 < den) : r ≤ 2 ^ 53 := by
  have hUnit : 0 < den * 2 ^ step := Nat.mul_pos hDen (Nat.two_pow_pos _)
  have hBelow := h.below
  have hHigh := h.high
  by_contra hMore
  nlinarith

/-- A rounded quotient has all its fifty-three bits, unless it is among the smallest
times. -/
theorem low_le (h : RoundedTo num den step r) (hDen : 0 < den) : step = 0 ∨ 2 ^ 52 ≤ r := by
  have hUnit : 0 < den * 2 ^ step := Nat.mul_pos hDen (Nat.two_pow_pos _)
  have hAbove := h.above
  refine h.low.imp_right fun hLow => ?_
  by_contra hLess
  nlinarith

/-- The magnitude that is put together stands for the whole gaps to which the quotient
was rounded. -/
theorem ticks_eq (h : RoundedTo num den step r) (hDen : 0 < den) :
    ticks (step * 2 ^ 52 + r) = r * 2 ^ step :=
  ticks_of_steps (h.le_high hDen) (h.low_le hDen)

/-- The next magnitude is one gap further, as long as the fifty-three bits do not run
over. -/
theorem ticks_next (h : RoundedTo num den step r) (hDen : 0 < den) (hInside : r < 2 ^ 53) :
    ticks (step * 2 ^ 52 + r + 1) = (r + 1) * 2 ^ step := by
  rw [Nat.add_assoc]
  exact ticks_of_steps hInside ((h.low_le hDen).imp_right Nat.le_succ_of_le)

/-- The magnitude before is one gap less, as long as there are fifty-three bits or the
gap is the smallest. -/
theorem ticks_previous (h : RoundedTo num den step (r + 1)) (hDen : 0 < den)
    (hInside : step = 0 ∨ 2 ^ 52 ≤ r) :
    ticks (step * 2 ^ 52 + (r + 1) - 1) = r * 2 ^ step := by
  have hPlace : step * 2 ^ 52 + (r + 1) - 1 = step * 2 ^ 52 + r := by omega
  rw [hPlace]
  exact ticks_of_steps (Nat.le_of_succ_le (h.le_high hDen)) hInside

/-- It is not above the midpoint to the next magnitude. -/
theorem le_upper_midpoint (h : RoundedTo num den step r) (hDen : 0 < den) :
    2 * num ≤ (ticks (step * 2 ^ 52 + r) + ticks (step * 2 ^ 52 + r + 1)) * den := by
  have hHere := h.ticks_eq hDen
  rcases Nat.lt_or_ge r (2 ^ 53) with hInside | hEnd
  · have hAbove := h.above
    rw [hHere, h.ticks_next hDen hInside]
    linarith
  · -- the quotient lies below the power of two to which it is rounded
    have hHigh := h.high
    have hNext : ticks (step * 2 ^ 52 + r) ≤ ticks (step * 2 ^ 52 + r + 1) :=
      ticks_strictMono.monotone (Nat.le_succ _)
    calc 2 * num ≤ 2 * (r * 2 ^ step) * den := by nlinarith
      _ ≤ _ := Nat.mul_le_mul_right den (by omega)

/-- On that midpoint the magnitude is even. -/
theorem even_of_upper_midpoint (h : RoundedTo num den step r) (hDen : 0 < den)
    (hTie : 2 * num = (ticks (step * 2 ^ 52 + r) + ticks (step * 2 ^ 52 + r + 1)) * den) :
    r % 2 = 0 := by
  rcases Nat.lt_or_ge r (2 ^ 53) with hInside | hEnd
  · rw [h.ticks_eq hDen, h.ticks_next hDen hInside] at hTie
    exact h.even (Or.inl (by linarith))
  · have hHigh := h.le_high hDen
    omega

/-- It is not below the midpoint to the magnitude before. -/
theorem lower_midpoint_le (h : RoundedTo num den step r) (hDen : 0 < den) :
    (ticks (step * 2 ^ 52 + r - 1) + ticks (step * 2 ^ 52 + r)) * den ≤ 2 * num := by
  have hHere := h.ticks_eq hDen
  have hBelow := h.below
  have hBefore : ticks (step * 2 ^ 52 + r - 1) ≤ ticks (step * 2 ^ 52 + r) :=
    ticks_strictMono.monotone (Nat.sub_le _ _)
  rcases Nat.eq_zero_or_pos r with rfl | hPos
  · obtain rfl : step = 0 := (h.low_le hDen).resolve_right (by decide)
    simp [ticks]
  obtain ⟨r, rfl⟩ : ∃ s, r = s + 1 := ⟨r - 1, by omega⟩
  by_cases hInside : step = 0 ∨ 2 ^ 52 ≤ r
  · rw [hHere, h.ticks_previous hDen hInside]
    linarith
  · -- the quotient lies above the power of two to which it is rounded
    have hLow := h.low.resolve_left fun hZero => hInside (Or.inl hZero)
    have hPower : r + 1 ≤ 2 ^ 52 := by omega
    calc _ ≤ 2 * ((r + 1) * 2 ^ step) * den := Nat.mul_le_mul_right den (by omega)
      _ = 2 * ((r + 1) * (den * 2 ^ step)) := by ring
      _ ≤ 2 * (2 ^ 52 * (den * 2 ^ step)) :=
        Nat.mul_le_mul_left 2 (Nat.mul_le_mul_right _ hPower)
      _ ≤ 2 * num := Nat.mul_le_mul_left 2 hLow

/-- On that midpoint the magnitude is even. -/
theorem even_of_lower_midpoint (h : RoundedTo num den step r) (hDen : 0 < den)
    (hTie : (ticks (step * 2 ^ 52 + r - 1) + ticks (step * 2 ^ 52 + r)) * den = 2 * num) :
    r % 2 = 0 := by
  rcases Nat.eq_zero_or_pos r with rfl | hPos
  · rfl
  obtain ⟨r, rfl⟩ : ∃ s, r = s + 1 := ⟨r - 1, by omega⟩
  by_cases hInside : step = 0 ∨ 2 ^ 52 ≤ r
  · rw [h.ticks_eq hDen, h.ticks_previous hDen hInside] at hTie
    exact h.even (Or.inr (by linarith))
  · have hLow := (h.low_le hDen).resolve_left fun hZero => hInside (Or.inl hZero)
    omega

end RoundedTo

/-- What lies below the midpoint to the next magnitude is not rounded beyond. -/
theorem nearestTicks_le {num den : Nat} (hDen : 0 < den)
    (h : 2 * num < (ticks m + ticks (m + 1)) * den) : nearestTicks num den ≤ m := by
  obtain ⟨step, r, hRounded, hNearest⟩ := exists_roundedTo num hDen
  have hLower := hRounded.lower_midpoint_le hDen
  rw [hNearest]
  by_contra hBeyond
  have hNext : m + 1 ≤ step * 2 ^ 52 + r := by omega
  have hHere : ticks (m + 1) ≤ ticks (step * 2 ^ 52 + r) := ticks_strictMono.monotone hNext
  have hBefore : ticks m ≤ ticks (step * 2 ^ 52 + r - 1) := ticks_strictMono.monotone (by omega)
  have hMidpoints := Nat.mul_le_mul_right den (Nat.add_le_add hBefore hHere)
  omega

/-- What lies above the midpoint to the magnitude before is not rounded below. -/
theorem le_nearestTicks {num den : Nat} (hDen : 0 < den) (hm : m ≤ infiniteMagnitude)
    (h : (ticks (m - 1) + ticks m) * den < 2 * num) : m ≤ nearestTicks num den := by
  obtain ⟨step, r, hRounded, hNearest⟩ := exists_roundedTo num hDen
  have hUpper := hRounded.le_upper_midpoint hDen
  rw [hNearest]
  by_contra hBeyond
  have hNext : step * 2 ^ 52 + r + 1 ≤ m := by omega
  have hLast : step * 2 ^ 52 + r ≤ m - 1 := Nat.le_sub_one_of_lt hNext
  have hHere : ticks (step * 2 ^ 52 + r + 1) ≤ ticks m := ticks_strictMono.monotone hNext
  have hBefore : ticks (step * 2 ^ 52 + r) ≤ ticks (m - 1) := ticks_strictMono.monotone hLast
  have hMidpoints := Nat.mul_le_mul_right den (Nat.add_le_add hBefore hHere)
  omega

/-- What lies on the midpoint to the next magnitude is not rounded beyond an even one. -/
theorem nearestTicks_le_of_even {num den : Nat} (hDen : 0 < den) (hEven : m % 2 = 0)
    (h : 2 * num ≤ (ticks m + ticks (m + 1)) * den) : nearestTicks num den ≤ m := by
  rcases Nat.lt_or_eq_of_le h with hBelow | hTie
  · exact nearestTicks_le hDen hBelow
  obtain ⟨step, r, hRounded, hNearest⟩ := exists_roundedTo num hDen
  rw [hNearest]
  by_contra hBeyond
  have hNext : m + 1 ≤ step * 2 ^ 52 + r := by omega
  have hLower := hRounded.lower_midpoint_le hDen
  have hPlace : step * 2 ^ 52 + r = m + 1 := by
    by_contra hFar
    have hHere : ticks (m + 1) < ticks (step * 2 ^ 52 + r) := ticks_strictMono (by omega)
    have hBefore : ticks m < ticks (step * 2 ^ 52 + r - 1) := ticks_strictMono (by omega)
    have hMidpoints := Nat.mul_lt_mul_of_pos_right (Nat.add_lt_add hBefore hHere) hDen
    omega
  have hOdd := hRounded.even_of_lower_midpoint hDen (by rw [hPlace, Nat.add_sub_cancel, hTie])
  omega

/-- What lies on the midpoint to the magnitude before is not rounded below an even one. -/
theorem le_nearestTicks_of_even {num den : Nat} (hDen : 0 < den) (hm : m ≤ infiniteMagnitude)
    (hEven : m % 2 = 0) (h : (ticks (m - 1) + ticks m) * den ≤ 2 * num) :
    m ≤ nearestTicks num den := by
  rcases Nat.lt_or_eq_of_le h with hAbove | hTie
  · exact le_nearestTicks hDen hm hAbove
  obtain ⟨step, r, hRounded, hNearest⟩ := exists_roundedTo num hDen
  rw [hNearest]
  by_contra hBeyond
  have hUpper := hRounded.le_upper_midpoint hDen
  have hPlace : step * 2 ^ 52 + r + 1 = m := by
    by_contra hFar
    have hHere : ticks (step * 2 ^ 52 + r + 1) < ticks m := ticks_strictMono (by omega)
    have hBefore : ticks (step * 2 ^ 52 + r) < ticks (m - 1) := ticks_strictMono (by omega)
    have hMidpoints := Nat.mul_lt_mul_of_pos_right (Nat.add_lt_add hBefore hHere) hDen
    omega
  have hLast : m - 1 = step * 2 ^ 52 + r := by omega
  have hOdd := hRounded.even_of_upper_midpoint hDen (by rw [hPlace, ← hLast, hTie])
  omega

end RoughCut.Seconds
