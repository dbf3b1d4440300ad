import Mathlib.Tactic.Positivity
import Mathlib.Tactic.Linarith
import Mathlib.Tactic.FieldSimp
import Mathlib.Algebra.Order.Field.Basic
import RoughCut.Json.Number
import RoughCut.Proofs.Seconds.Shortest

/-!
How far a time drifts when it is read in steps, each of which rounds. A rounding
changes a number by a small factor, the factors of the steps are multiplied, and a
factor that is small enough leads past a few neighbours at most.
-/

namespace RoughCut.Seconds

/-- Two numbers of which each is at most the other times `1 + e`. -/
structure Within (e a b : ℚ) : Prop where
  above : a ≤ b * (1 + e)
  below : b ≤ a * (1 + e)

namespace Within

variable {e f a b c d : ℚ}

/-- What is close to something close is close as well. It is as far off as both are
together, and by the product of these distances. -/
theorem trans (he : 0 ≤ e) (hf : 0 ≤ f) (first : Within e a b) (second : Within f b c) :
    Within (e + f + e * f) a c where
  above := by
    calc a ≤ b * (1 + e) := first.above
      _ ≤ c * (1 + f) * (1 + e) := mul_le_mul_of_nonneg_right second.above (by linarith)
      _ = c * (1 + (e + f + e * f)) := by ring
  below := by
    calc c ≤ b * (1 + f) := second.below
      _ ≤ a * (1 + e) * (1 + f) := mul_le_mul_of_nonneg_right first.below (by linarith)
      _ = a * (1 + (e + f + e * f)) := by ring

theorem mul_right (h : Within e a b) (hc : 0 ≤ c) : Within e (a * c) (b * c) where
  above := by
    calc a * c ≤ b * (1 + e) * c := mul_le_mul_of_nonneg_right h.above hc
      _ = b * c * (1 + e) := by ring
  below := by
    calc b * c ≤ a * (1 + e) * c := mul_le_mul_of_nonneg_right h.below hc
      _ = a * c * (1 + e) := by ring

theorem div_left (h : Within e a b) (ha : 0 < a) (hb : 0 < b) (hc : 0 ≤ c) :
    Within e (c / a) (c / b) where
  above := by
    rw [div_mul_eq_mul_div, div_le_div_iff₀ ha hb]
    calc c * b ≤ c * (a * (1 + e)) := mul_le_mul_of_nonneg_left h.below hc
      _ = c * (1 + e) * a := by ring
  below := by
    rw [div_mul_eq_mul_div, div_le_div_iff₀ hb ha]
    calc c * a ≤ c * (b * (1 + e)) := mul_le_mul_of_nonneg_left h.above hc
      _ = c * (1 + e) * b := by ring

/-- A product is as far off as both its factors are together, and by the product of
these distances. -/
theorem mul (he : 0 ≤ e) (hf : 0 ≤ f) (hb : 0 ≤ b) (hc : 0 ≤ c) (first : Within e a b)
    (second : Within f c d) : Within (e + f + e * f) (a * c) (b * d) := by
  have hSecond := second.mul_right hb
  rw [mul_comm c, mul_comm d] at hSecond
  exact (first.mul_right hc).trans he hf hSecond

/-- A quotient is as far off as both its parts are together, and by the product of these
distances. -/
theorem div (he : 0 ≤ e) (hf : 0 ≤ f) (hb : 0 ≤ b) (hc : 0 < c) (hd : 0 < d)
    (first : Within e a b) (second : Within f c d) :
    Within (e + f + e * f) (a / c) (b / d) := by
  have hFirst := first.mul_right (inv_nonneg.mpr hc.le)
  rw [← div_eq_mul_inv, ← div_eq_mul_inv] at hFirst
  exact hFirst.trans he hf (second.div_left hc hd hb)

end Within

variable {m n num den : Nat} {e : ℚ}

/-- Rounding a quotient of at least `c` ticks changes it by one part in `2 * c` at most. -/
theorem within_nearestTicks {c : Nat} (hc : 0 < c) (hBits : c ≤ 2 ^ 52) (hDen : 0 < den)
    (hLow : c * den ≤ num) (hFinite : nearestTicks num den < infiniteMagnitude) :
    Within (1 / (2 * c)) (ticks (nearestTicks num den)) (num / den) := by
  obtain ⟨step, r, hRounded, hNearest⟩ := exists_roundedTo num hDen
  have hPlace : nearestTicks num den = step * 2 ^ 52 + r := by omega
  rw [hPlace, hRounded.ticks_eq hDen]
  have hBelow := hRounded.below
  have hAbove := hRounded.above
  have hUnit : 0 < den * 2 ^ step := Nat.mul_pos hDen (Nat.two_pow_pos _)
  have hStep : c * (den * 2 ^ step) ≤ num := by
    rcases hRounded.low with hZero | hHigh
    · simpa [hZero] using hLow
    · exact (Nat.mul_le_mul_right _ hBits).trans hHigh
  have hDigits : c ≤ r := by
    have hDouble : 2 * c * (den * 2 ^ step) ≤ (2 * r + 1) * (den * 2 ^ step) := by linarith
    have := Nat.le_of_mul_le_mul_right hDouble hUnit
    omega
  have hRounded : c * (den * 2 ^ step) ≤ r * (den * 2 ^ step) := Nat.mul_le_mul_right _ hDigits
  have hTicks : r * 2 ^ step * den = r * (den * 2 ^ step) := by ring
  generalize den * 2 ^ step = gap at *
  have hcQ : (0 : ℚ) < c := by exact_mod_cast hc
  have hDenQ : (0 : ℚ) < den := by exact_mod_cast hDen
  have hTicks : ((r * 2 ^ step : Nat) : ℚ) * den = r * gap := by exact_mod_cast hTicks
  have hBelow : (2 : ℚ) * r * gap ≤ 2 * num + gap := by exact_mod_cast hBelow
  have hAbove : (2 : ℚ) * num ≤ (2 * r + 1) * gap := by exact_mod_cast hAbove
  have hStep : (gap : ℚ) ≤ num / c := by
    rw [le_div_iff₀ hcQ, mul_comm]
    exact_mod_cast hStep
  have hRounded : (gap : ℚ) ≤ r * gap / c := by
    rw [le_div_iff₀ hcQ, mul_comm]
    exact_mod_cast hRounded
  constructor
  · rw [div_mul_eq_mul_div, le_div_iff₀ hDenQ, hTicks]
    calc (r : ℚ) * gap ≤ num + num / c / 2 := by linarith
      _ = num * (1 + 1 / (2 * c)) := by ring
  · rw [div_le_iff₀ hDenQ]
    calc (num : ℚ) ≤ r * gap + r * gap / c / 2 := by linarith
      _ = r * gap * (1 + 1 / (2 * c)) := by ring
      _ = (r * 2 ^ step : Nat) * (1 + 1 / (2 * c)) * den := by
        rw [← hTicks]
        ring

/-- Twice the midpoint between a magnitude and the next, in ticks. -/
def midpoint (m : Nat) : Nat :=
  ticks m + ticks (m + 1)

/-- Twice the middle between a time and the next is less than `2 ^ 54` gaps. So a factor
close to one leads over few of them. -/
theorem midpoint_le (m : Nat) : midpoint m ≤ (2 ^ 54 - 1) * gap m := by
  have hNext := ticks_succ m
  have hBits := ticks_succ_le m
  rw [midpoint, Nat.sub_mul, Nat.one_mul]
  omega

/-- From one time to another there is at least the first gap for each time in between,
since gaps do not get smaller. -/
theorem ticks_add_le (m n : Nat) : ticks m + n * gap m ≤ ticks (m + n) := by
  induction n with
  | zero => simp
  | succ n ih =>
      have hNext := ticks_succ (m + n)
      have hGap : gap m ≤ gap (m + n) := gap_mono (Nat.le_add_right m n)
      rw [← Nat.add_assoc, hNext, Nat.succ_mul]
      omega

/-- A small enough factor leads from a midpoint past so many others at most. From one
midpoint to the next it is one part in fifty-three bits at least. -/
theorem midpoint_mul_lt (he : 0 ≤ e) (h : e * (2 ^ 54 - 1) < 2 * n) (m : Nat) :
    (midpoint m : ℚ) * (1 + e) < midpoint (m + n) := by
  have hGap : (0 : ℚ) < gap m := by exact_mod_cast gap_pos m
  have hHere : (midpoint m : ℚ) ≤ (2 ^ 54 - 1) * gap m := by
    have hBits := midpoint_le m
    have hCast : ((2 ^ 54 - 1 : Nat) : ℚ) = 2 ^ 54 - 1 := by norm_num
    rw [← hCast]
    exact_mod_cast hBits
  have hLater : (midpoint m : ℚ) + 2 * n * gap m ≤ midpoint (m + n) := by
    have hLow := ticks_add_le m n
    have hHigh := ticks_add_le (m + 1) n
    have hWider : n * gap m ≤ n * gap (m + 1) := Nat.mul_le_mul_left n (gap_mono (Nat.le_succ m))
    have hSum : midpoint m + 2 * n * gap m ≤ midpoint (m + n) := by
      rw [midpoint, midpoint, Nat.add_right_comm m n 1, Nat.mul_assoc]
      omega
    exact_mod_cast hSum
  calc (midpoint m : ℚ) * (1 + e) = midpoint m + e * midpoint m := by ring
    _ ≤ midpoint m + e * ((2 ^ 54 - 1) * gap m) := by
      have := mul_le_mul_of_nonneg_left hHere he
      linarith
    _ = midpoint m + e * (2 ^ 54 - 1) * gap m := by ring
    _ < midpoint m + 2 * n * gap m := by
      have := mul_lt_mul_of_pos_right h hGap
      linarith
    _ ≤ midpoint (m + n) := hLater

/-- Each of two magnitudes is at most so many steps above the other. -/
structure Near (n a b : Nat) : Prop where
  above : a ≤ b + n
  below : b ≤ a + n

/-- A number of ticks lies between the midpoints from a magnitude to its neighbours. -/
structure Around (m : Nat) (v : ℚ) : Prop where
  low : midpoint (m - 1) ≤ 2 * v
  high : 2 * v ≤ midpoint m

/-- What lies near a number around a magnitude is rounded to a neighbour of it. Small
errors before the last rounding lead no further than that. -/
theorem near_nearestTicks {v : ℚ} (hDen : 0 < den) (hm : m ≤ infiniteMagnitude)
    (he : 0 ≤ e) (h : e * (2 ^ 54 - 1) < 2 * n) (hWithin : Within e (num / den) v)
    (hAround : Around m v) : Near n (nearestTicks num den) m := by
  have hDenQ : (0 : ℚ) < den := by exact_mod_cast hDen
  have hFactor : (0 : ℚ) < 1 + e := by linarith
  constructor
  · refine nearestTicks_le hDen ?_
    have hNum : (2 : ℚ) * (num / den) < midpoint (m + n) := by
      calc (2 : ℚ) * (num / den) ≤ 2 * v * (1 + e) := by linarith [hWithin.above]
        _ ≤ midpoint m * (1 + e) := mul_le_mul_of_nonneg_right hAround.high hFactor.le
        _ < midpoint (m + n) := midpoint_mul_lt he h m
    rw [← mul_div_assoc, div_lt_iff₀ hDenQ] at hNum
    exact_mod_cast hNum
  · rcases Nat.lt_or_ge n m with hLarge | hSmall
    · have hLow := hAround.low
      obtain ⟨s, rfl⟩ : ∃ s, m = s + 1 + n := ⟨m - n - 1, by omega⟩
      have hBefore : s + 1 + n - 1 = s + n := by omega
      rw [hBefore] at hLow
      refine Nat.add_le_add_right (le_nearestTicks hDen (by omega) ?_) n
      have hNum : (midpoint s : ℚ) < 2 * (num / den) := by
        have hFar : (midpoint s : ℚ) * (1 + e) < 2 * (num / den) * (1 + e) := by
          calc (midpoint s : ℚ) * (1 + e) < midpoint (s + n) := midpoint_mul_lt he h s
            _ ≤ 2 * v := hLow
            _ ≤ 2 * (num / den) * (1 + e) := by linarith [hWithin.below]
        exact lt_of_mul_lt_mul_right hFar hFactor.le
      rw [← mul_div_assoc, lt_div_iff₀ hDenQ] at hNum
      exact_mod_cast hNum
    · omega

end RoughCut.Seconds
