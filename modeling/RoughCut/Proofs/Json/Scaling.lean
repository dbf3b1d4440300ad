import RoughCut.Json.Number
import RoughCut.Proofs.Seconds.Drift

/-!
How far the scaling of gathered digits leads from the number they stand for. Its
steps are to round the digits, to form a power of ten, and to multiply or divide
by it, and below the power that is formed to divide twice.
-/

namespace RoughCut.Seconds

open Json.Number

variable {m n num den : Nat} {e : ℚ}

/-- The ticks of a second. -/
def second : Nat :=
  Nat.pow 2 1074

/-- The factor by which one rounding changes a number, less one. -/
def roundOff : ℚ :=
  1 / 2 ^ 53

theorem roundOff_pos : 0 < roundOff := by
  unfold roundOff
  positivity

/-- The largest power of ten that is formed. -/
def largestPower : Nat :=
  Nat.pow 10 308

/-- How a second, the largest power of ten and the last finite time compare. -/
structure Proportions : Prop where
  second_ge : 2 ^ 52 ≤ second
  double_second : Nat.pow 2 1075 = 2 * second
  power_ge : 4 * 10 ^ 18 ≤ largestPower
  power_le : 3 * 2 ^ 50 * largestPower ≤ 2 * second
  square_gt : 2 * (10 ^ 18 * second) < largestPower * largestPower
  finite_gt : 2 * (largestPower * second) < midpoint (infiniteMagnitude - 1)
  finite_lt : midpoint (infiniteMagnitude - 1) < 2 * (second * (largestPower * 10))

/-- All these are facts about fixed numbers, so the kernel can compute them once.
Nothing else about the format of a time is needed here. -/
theorem proportions : Proportions := by
  constructor <;> decide +kernel

theorem second_pos : 0 < second :=
  Nat.lt_of_lt_of_le (Nat.two_pow_pos 52) proportions.second_ge

/-- What is not above the largest power in seconds is rounded to a finite time. -/
theorem nearestTicks_lt (hDen : 0 < den) (h : num ≤ largestPower * second * den) :
    nearestTicks num den < infiniteMagnitude := by
  have hBelow : 2 * num < midpoint (infiniteMagnitude - 1) * den := by
    calc 2 * num ≤ 2 * (largestPower * second) * den := by linarith
      _ < _ := Nat.mul_lt_mul_of_pos_right proportions.finite_gt hDen
  have hInfinite : 0 < infiniteMagnitude := by decide
  have hRounded := nearestTicks_le hDen hBelow
  omega

/-- Rounding a fraction of a second is rounding a fraction of a tick, once the seconds
are told in ticks. -/
theorem nearest_eq (num den : Nat) : nearest num den = nearestTicks (num * second) den := by
  unfold nearest second
  generalize Nat.pow 2 1074 = ticks
  rfl

/-- A whole number that is not above the largest power of ten is rounded once, so it is
off by one rounding at most. -/
theorem within_nearest (hn : 0 < n) (h : n ≤ largestPower) :
    Within roundOff (ticks (nearest n 1)) (n * second) := by
  rw [nearest_eq]
  have hSecond : n * second ≤ largestPower * second * 1 := by
    rw [Nat.mul_one]
    exact Nat.mul_le_mul_right _ h
  have hLow : 2 ^ 52 * 1 ≤ n * second :=
    proportions.second_ge.trans (Nat.le_mul_of_pos_left second hn)
  have hRounded := within_nearestTicks (Nat.two_pow_pos 52) (Nat.le_refl _) Nat.one_pos hLow
    (nearestTicks_lt Nat.one_pos hSecond)
  have hFactor : (1 : ℚ) / (2 * (2 ^ 52 : Nat)) = roundOff := by norm_num [roundOff]
  rw [hFactor, Nat.cast_mul, Nat.cast_one, div_one] at hRounded
  exact hRounded

/-- Every power of ten that is looked up is at most the largest one, so none of them is
rounded to infinity. -/
theorem pow_ten_le {k : Nat} (h : k ≤ 308) : Nat.pow 10 k ≤ largestPower := by
  unfold largestPower
  revert h
  generalize 308 = most
  exact fun h => Nat.pow_le_pow_right (by decide) h

/-- A power of ten that is looked up is the exact one, rounded once. -/
theorem within_powerOfTen {k : Nat} (h : k ≤ 308) :
    Within roundOff (ticks (powerOfTen k)) (10 ^ k * second) := by
  have hWithin := within_nearest (Nat.pow_pos (by decide)) (pow_ten_le h)
  rwa [Nat.cast_pow] at hWithin

theorem ticks_pos_of_within {e : ℚ} (h : Within e (ticks m) (n * second)) (hn : 0 < n) :
    (0 : ℚ) < ticks m := by
  have hPos : (0 : ℚ) < n * second := by exact_mod_cast Nat.mul_pos hn second_pos
  rcases Nat.eq_zero_or_pos (ticks m) with hZero | hSome
  · have hBelow := h.below
    rw [hZero, Nat.cast_zero, zero_mul] at hBelow
    linarith
  · exact_mod_cast hSome

/-- The product of two times is the exact product of their ticks, rounded once. -/
theorem mulMagnitude_eq (a b : Nat) :
    mulMagnitude a b = nearestTicks (ticks a * ticks b) second := by
  unfold mulMagnitude second
  generalize Nat.pow 2 1074 = ticks
  rfl

/-- The quotient of two times is the exact quotient of their ticks, rounded once. -/
theorem divMagnitude_eq (a b : Nat) :
    divMagnitude a b = nearestTicks (ticks a * second) (ticks b) := by
  unfold divMagnitude second
  generalize Nat.pow 2 1074 = ticks
  rfl

variable {a k : Nat} {f w : ℚ}

theorem second_cast_pos : (0 : ℚ) < second := by
  exact_mod_cast second_pos

theorem seconds_nonneg (n : Nat) : (0 : ℚ) ≤ n * second :=
  mul_nonneg n.cast_nonneg second_cast_pos.le

/-- The exact product that is rounded last. -/
theorem within_product (hf : 0 ≤ f) (hw : 0 ≤ w) (h : Within f (ticks a) w) (hk : k ≤ 308) :
    Within (f + roundOff + f * roundOff) ((ticks a * ticks (powerOfTen k) : Nat) / second)
      (w * 10 ^ k) := by
  have hProduct := (h.mul hf roundOff_pos.le hw (Nat.cast_nonneg _)
    (within_powerOfTen hk)).mul_right (inv_nonneg.mpr second_cast_pos.le)
  have hExact : w * (10 ^ k * second) * (second : ℚ)⁻¹ = w * 10 ^ k := by
    have := second_cast_pos.ne'
    field_simp
  rwa [hExact, ← div_eq_mul_inv, ← Nat.cast_mul] at hProduct

theorem ticks_powerOfTen_pos (hk : k ≤ 308) : (0 : ℚ) < ticks (powerOfTen k) := by
  have hPower : Within roundOff (ticks (powerOfTen k)) ((10 ^ k : Nat) * second) := by
    exact_mod_cast within_powerOfTen hk
  exact ticks_pos_of_within hPower (Nat.pow_pos (by decide))

/-- The exact quotient that is rounded last. -/
theorem within_quotient (hf : 0 ≤ f) (hw : 0 ≤ w) (h : Within f (ticks a) w) (hk : k ≤ 308) :
    Within (f + roundOff + f * roundOff) ((ticks a * second : Nat) / ticks (powerOfTen k))
      (w / 10 ^ k) := by
  have hTenth : (0 : ℚ) < 10 ^ k * second := mul_pos (by positivity) second_cast_pos
  have hQuotient := (h.div hf roundOff_pos.le hw (ticks_powerOfTen_pos hk) hTenth
    (within_powerOfTen hk)).mul_right second_cast_pos.le
  have hExact : w / (10 ^ k * second) * second = w / 10 ^ k := by
    have := second_cast_pos.ne'
    field_simp
  rwa [hExact, div_mul_eq_mul_div, ← Nat.cast_mul] at hQuotient

/-- What lies near half of the largest power in seconds at most is finite. -/
theorem nearestTicks_lt_of_within (hDen : 0 < den) (hw : 0 ≤ w) (he : e ≤ 1)
    (h : Within e (num / den) w) (hMost : 2 * w ≤ largestPower * second) :
    nearestTicks num den < infiniteMagnitude := by
  refine nearestTicks_lt hDen ?_
  have hQuotient : (num : ℚ) / den ≤ largestPower * second := by
    calc (num : ℚ) / den ≤ w * (1 + e) := h.above
      _ ≤ w * 2 := mul_le_mul_of_nonneg_left (by linarith) hw
      _ ≤ largestPower * second := by linarith
  rw [div_le_iff₀ (by exact_mod_cast hDen)] at hQuotient
  exact_mod_cast hQuotient

theorem largestPower_cast : (largestPower : ℚ) = 10 ^ 308 := by
  unfold largestPower
  generalize 308 = most
  exact Nat.cast_pow 10 most

theorem largestPower_pos : (0 : ℚ) < largestPower := by
  have hPower := proportions.power_ge
  have hPos : 0 < largestPower := by omega
  exact_mod_cast hPos

/-- Digits that stay far below the largest power leave room for two roundings, whatever
they are divided by. -/
theorem double_seconds_le (hLimit : 4 * n ≤ largestPower) (k : Nat) :
    2 * (n * second / 10 ^ k : ℚ) ≤ largestPower * second := by
  have hPower : (1 : ℚ) ≤ 10 ^ k := one_le_pow₀ (by norm_num)
  have hLimit : (4 : ℚ) * n ≤ largestPower := by exact_mod_cast hLimit
  have hSeconds := seconds_nonneg n
  have hLess : (n * second / 10 ^ k : ℚ) ≤ n * second := div_le_self hSeconds hPower
  have hMost := mul_le_mul_of_nonneg_right hLimit second_cast_pos.le
  linarith

/-- The factor of the digits and the power of ten, less one. -/
def twice : ℚ :=
  roundOff + roundOff + roundOff * roundOff

theorem twice_nonneg : 0 ≤ twice := by
  norm_num [twice, roundOff]

/-- Two roundings and the one at the end shift a number by less than two neighbours. -/
theorem twice_lt : twice * (2 ^ 54 - 1) < 2 * (2 : Nat) := by
  norm_num [twice, roundOff]

section Near

variable (hn : 0 < n) (hLimit : 4 * n ≤ largestPower) (hk : k ≤ 308)
include hn hLimit hk

/-- Two roundings and a third are worth two neighbours. The digits, the power of ten and
their product are each rounded once. -/
theorem near_product (hm : m ≤ infiniteMagnitude) (h : Around m (n * second * 10 ^ k)) :
    Near 2 (mulMagnitude (nearest n 1) (powerOfTen k)) m := by
  have hProduct := within_product roundOff_pos.le (seconds_nonneg n)
    (within_nearest hn (by omega)) hk
  rw [mulMagnitude_eq]
  exact near_nearestTicks second_pos hm twice_nonneg twice_lt hProduct h

/-- A quotient of rounded digits and a rounded power of ten is two neighbours off at
most, as a product is. -/
theorem near_quotient (hm : m ≤ infiniteMagnitude) (h : Around m (n * second / 10 ^ k)) :
    Near 2 (divMagnitude (nearest n 1) (powerOfTen k)) m := by
  have hQuotient := within_quotient roundOff_pos.le (seconds_nonneg n)
    (within_nearest hn (by omega)) hk
  rw [divMagnitude_eq]
  exact near_nearestTicks (by exact_mod_cast ticks_powerOfTen_pos hk) hm
    twice_nonneg twice_lt hQuotient h

theorem quotient_lt : divMagnitude (nearest n 1) (powerOfTen k) < infiniteMagnitude := by
  have hQuotient := within_quotient roundOff_pos.le (seconds_nonneg n)
    (within_nearest hn (by omega)) hk
  rw [divMagnitude_eq]
  exact nearestTicks_lt_of_within (by exact_mod_cast ticks_powerOfTen_pos hk)
    (div_nonneg (seconds_nonneg n) (by positivity)) (by norm_num [roundOff]) hQuotient
    (double_seconds_le hLimit k)

end Near

/-- Where a number is divided twice the first quotient is still far from the smallest
times, where digits would be lost. -/
theorem firstQuotient_ge (hn : 0 < n) (h : Within twice w (n * second / largestPower)) :
    2 ^ 50 ≤ w := by
  have hWide : (3 * 2 ^ 50 * largestPower : ℚ) ≤ 2 * second := by
    exact_mod_cast proportions.power_le
  have hLeast : (3 * 2 ^ 50 : ℚ) ≤ 2 * (n * second / largestPower) := by
    have hOne : (1 : ℚ) ≤ n := by exact_mod_cast hn
    have hMore := mul_le_mul_of_nonneg_right hOne second_cast_pos.le
    rw [← mul_div_assoc, le_div_iff₀ largestPower_pos]
    linarith
  have hFactor : twice ≤ 1 / 2 := by norm_num [twice, roundOff]
  have hBelow := h.below
  by_contra hLess
  nlinarith [twice_nonneg]

/-- The first of two quotients keeps fifty-one bits at least. The decimal is so small
there that its digits are divided twice. -/
theorem within_firstQuotient (hn : 0 < n) (hLimit : 4 * n ≤ largestPower) :
    Within (1 / 2 ^ 51 + twice + 1 / 2 ^ 51 * twice)
      (ticks (divMagnitude (nearest n 1) (powerOfTen 308))) (n * second / largestPower) := by
  have hQuotient : Within twice _ _ := within_quotient roundOff_pos.le (seconds_nonneg n)
    (within_nearest hn (by omega)) (Nat.le_refl 308)
  rw [← largestPower_cast] at hQuotient
  have hFinite := quotient_lt hn hLimit (Nat.le_refl 308)
  have hPower := ticks_powerOfTen_pos (Nat.le_refl 308)
  rw [divMagnitude_eq] at hFinite ⊢
  have hLow := firstQuotient_ge hn hQuotient
  rw [le_div_iff₀ hPower] at hLow
  generalize ticks (nearest n 1) * second = num at *
  generalize ticks (powerOfTen 308) = den at *
  have hTicks := within_nearestTicks (Nat.two_pow_pos 50) (by decide)
    (by exact_mod_cast hPower) (by exact_mod_cast hLow) hFinite
  have hFactor : (1 : ℚ) / (2 * (2 ^ 50 : Nat)) = 1 / 2 ^ 51 := by norm_num
  rw [hFactor] at hTicks
  exact hTicks.trans (by positivity) twice_nonneg hQuotient

theorem firstQuotient_nonneg (n : Nat) : (0 : ℚ) ≤ n * second / largestPower :=
  div_nonneg (seconds_nonneg n) largestPower.cast_nonneg

section Near

variable (hn : 0 < n) (hLimit : 4 * n ≤ largestPower) (hk : k ≤ 308)
include hn hLimit hk

/-- The exact quotient that is rounded last where there are two. All the roundings
before it are counted together. -/
theorem within_secondQuotient :
    let first := divMagnitude (nearest n 1) (powerOfTen 308)
    let f := 1 / 2 ^ 51 + twice + 1 / 2 ^ 51 * twice
    Within (f + roundOff + f * roundOff)
      ((ticks first * second : Nat) / ticks (powerOfTen k)) (n * second / largestPower / 10 ^ k) :=
  within_quotient (by norm_num [twice, roundOff])
    (firstQuotient_nonneg n) (within_firstQuotient hn hLimit) hk

/-- Two divisions are worth eight neighbours, since each rounds both its operands and
itself. -/
theorem near_secondQuotient (hm : m ≤ infiniteMagnitude)
    (h : Around m (n * second / largestPower / 10 ^ k)) :
    Near 8 (divMagnitude (divMagnitude (nearest n 1) (powerOfTen 308)) (powerOfTen k)) m := by
  have hQuotient := within_secondQuotient hn hLimit hk
  rw [divMagnitude_eq]
  exact near_nearestTicks (by exact_mod_cast ticks_powerOfTen_pos hk) hm
    (by norm_num [twice, roundOff]) (by norm_num [twice, roundOff]) hQuotient h

theorem secondQuotient_lt :
    divMagnitude (divMagnitude (nearest n 1) (powerOfTen 308)) (powerOfTen k) <
      infiniteMagnitude := by
  have hQuotient := within_secondQuotient hn hLimit hk
  have hLess : (n * second / largestPower / 10 ^ k : ℚ) ≤ n * second / largestPower :=
    div_le_self (firstQuotient_nonneg n) (one_le_pow₀ (by norm_num))
  have hMost := double_seconds_le hLimit 308
  rw [← largestPower_cast] at hMost
  rw [divMagnitude_eq]
  exact nearestTicks_lt_of_within (by exact_mod_cast ticks_powerOfTen_pos hk)
    (div_nonneg (firstQuotient_nonneg n) (by positivity))
    (by norm_num [twice, roundOff]) hQuotient (by linarith)

end Near

/-- How many neighbours off scaling leads at most. Two divisions cost more. -/
def drift (e : Int) : Nat :=
  if e < -308 then 8 else 2

/-- A number of seconds in ticks, exactly. -/
def exactTicks (n : Nat) (e : Int) : ℚ :=
  n * second * 10 ^ e

theorem exactTicks_of_nonneg (n k : Nat) : exactTicks n k = n * second * 10 ^ k := by
  rw [exactTicks, zpow_natCast]

theorem exactTicks_neg (n k : Nat) : exactTicks n (-k) = n * second / 10 ^ k := by
  rw [exactTicks, zpow_neg, zpow_natCast, div_eq_mul_inv]

/-- Below the smallest power of ten that is formed the exact number is that of two
divisions. -/
theorem exactTicks_twice (n k : Nat) :
    exactTicks n (-(308 + k : Nat)) = n * second / largestPower / 10 ^ k := by
  rw [exactTicks_neg, pow_add, ← largestPower_cast, div_div]

/-- A grid in seconds. -/
theorem gridSpacing_cast (k : Int) :
    (gridSpacing k : ℚ) = 2 * (second * 10 ^ k) * gridUnit k := by
  rw [gridSpacing, proportions.double_second, gridUnit]
  generalize second = perSecond
  rcases Int.le_total 0 k with hWhole | hPart
  · obtain ⟨n, rfl⟩ := Int.eq_ofNat_of_zero_le hWhole
    have hUnit : (-(n : Int)).toNat = 0 := by omega
    rw [hUnit, Int.toNat_natCast, zpow_natCast, Nat.pow_eq, Nat.pow_eq]
    push_cast
    ring
  · obtain ⟨n, rfl⟩ : ∃ n : Nat, k = -n := ⟨k.natAbs, by omega⟩
    have hSpacing : (-(n : Int)).toNat = 0 := by omega
    have hPower : (10 : ℚ) ^ n ≠ 0 := by positivity
    rw [hSpacing, neg_neg, Int.toNat_natCast, zpow_neg, zpow_natCast, Nat.pow_eq, Nat.pow_eq]
    push_cast
    field_simp

/-- What is read as a time lies around it. -/
theorem around_of_onGrid (hm : 0 < m) {d : Nat} {k : Int} (h : OnGrid m k d) :
    Around m (exactTicks d k) := by
  have hUnit : (0 : ℚ) < gridUnit k := by exact_mod_cast gridUnit_pos k
  have hPlace : (d * gridSpacing k : ℚ) = 2 * exactTicks d k * gridUnit k := by
    rw [gridSpacing_cast, exactTicks]
    ring
  have hBefore : midpoint (m - 1) = (interval m).low := by
    rw [midpoint, Nat.sub_add_cancel hm]
    rfl
  constructor
  · have hLow : ((interval m).low * gridUnit k : ℚ) ≤ d * gridSpacing k := by
      exact_mod_cast h.low
    rw [hPlace] at hLow
    rw [hBefore]
    exact le_of_mul_le_mul_right hLow hUnit
  · have hHigh : (d * gridSpacing k : ℚ) ≤ midpoint m * gridUnit k := by
      exact_mod_cast h.high
    rw [hPlace] at hHigh
    exact le_of_mul_le_mul_right hHigh hUnit

/-- Zeros at the end of the digits may be told by the exponent just as well. -/
theorem exactTicks_ten_pow (n i : Nat) (e : Int) :
    exactTicks (10 ^ i * n) e = exactTicks n (i + e) := by
  rw [exactTicks, exactTicks, zpow_add₀ (by norm_num), zpow_natCast]
  push_cast
  ring

/-- Digits that are not all zero are not rounded to zero. So the case that scaling
treats on its own does not arise. -/
theorem nearest_ne_zero (hn : 0 < n) (h : n ≤ largestPower) : nearest n 1 ≠ 0 := by
  intro hZero
  have hPos := ticks_pos_of_within (within_nearest hn h) hn
  rw [hZero] at hPos
  exact absurd hPos (by decide)

/-- With an exponent from zero on scaling is one product, and an infinite product is out
of range. -/
theorem scale_of_nonneg (hm : m ≠ 0) (hk : k ≤ 308) :
    scale m k =
      if mulMagnitude m (powerOfTen k) < infiniteMagnitude then
        some (mulMagnitude m (powerOfTen k))
      else none := by
  rw [scale, if_neg hm, if_neg (by omega), if_neg (by omega), Int.toNat_natCast]

/-- With a negative exponent that has a power of ten scaling is one quotient, which is
never out of range. -/
theorem scale_of_neg (hm : m ≠ 0) (hPos : 0 < k) (hk : k ≤ 308) :
    scale m (-k) = some (divMagnitude m (powerOfTen k)) := by
  have hRounds : (k - 1) / 308 = 0 := by omega
  have hLast : (k - 1) % 308 + 1 = k := by omega
  rw [scale, if_neg hm, if_pos (by omega)]
  simp only [neg_neg, Int.toNat_natCast, hRounds, hLast, scaleDown]

/-- With an exponent below all powers of ten scaling divides by the largest of them
first, and then by what is left. -/
theorem scale_twice (hm : m ≠ 0) (hPos : 0 < k) (hk : k ≤ 308) :
    scale m (-(308 + k : Nat)) =
      some (divMagnitude (divMagnitude m (powerOfTen 308)) (powerOfTen k)) := by
  have hRounds : (308 + k - 1) / 308 = 1 := by omega
  have hLast : (308 + k - 1) % 308 + 1 = k := by omega
  rw [scale, if_neg hm, if_pos (by omega)]
  simp only [neg_neg, Int.toNat_natCast, hRounds, hLast, scaleDown, if_neg hm]

/-- The limits between neighbouring times are in the order of the times. So a number
between two limits is rounded to a time between theirs. -/
theorem midpoint_mono (h : m ≤ n) : midpoint m ≤ midpoint n :=
  Nat.add_le_add (ticks_strictMono.monotone h) (ticks_strictMono.monotone (Nat.succ_le_succ h))

/-- No number of whole seconds that lies around a finite time has more than the
largest power of ten. -/
theorem exponent_le {e : Int} (hn : 0 < n) (hm : m < infiniteMagnitude)
    (h : Around m (exactTicks n e)) : e ≤ 308 := by
  by_contra hMore
  obtain ⟨k, rfl⟩ : ∃ k : Nat, e = (308 + (1 + k) : Nat) := ⟨(e - 309).toNat, by omega⟩
  have hHigh := h.high
  rw [exactTicks_of_nonneg, pow_add, ← largestPower_cast] at hHigh
  have hLast : (midpoint m : ℚ) < 2 * (second * (largestPower * 10)) := by
    exact_mod_cast (midpoint_mono (Nat.le_sub_one_of_lt hm)).trans_lt proportions.finite_lt
  have hPower : (10 : ℚ) ≤ 10 ^ (1 + k) := le_self_pow₀ (by norm_num) (by omega)
  have hOne : (1 : ℚ) ≤ n := by exact_mod_cast hn
  have hSeconds : (second : ℚ) ≤ n * second := le_mul_of_one_le_left second_cast_pos.le hOne
  have hProduct : (second * (largestPower * 10) : ℚ) ≤
      n * second * (largestPower * 10 ^ (1 + k)) :=
    mul_le_mul hSeconds (mul_le_mul_of_nonneg_left hPower largestPower_pos.le)
      (mul_nonneg largestPower_pos.le (by norm_num)) (seconds_nonneg n)
  linarith

/-- No number of few digits that lies around a time has less than the square of the
smallest power of ten. -/
theorem le_exponent {e : Int} (hn : n < 10 ^ 18) (h : Around m (exactTicks n e)) :
    -616 ≤ e := by
  by_contra hLess
  obtain ⟨k, rfl⟩ : ∃ k : Nat, e = -(308 + (308 + k) : Nat) :=
    ⟨(-616 - e).toNat, by omega⟩
  have hLow := h.low
  rw [exactTicks_twice, pow_add, ← largestPower_cast, ← div_mul_eq_div_div] at hLow
  have hFirst : (1 : ℚ) ≤ midpoint (m - 1) := by
    have hPos : ticks 0 < ticks (m - 1 + 1) := ticks_strictMono (Nat.succ_pos _)
    have hMidpoint : 1 ≤ midpoint (m - 1) := by
      rw [midpoint]
      omega
    exact_mod_cast hMidpoint
  have hFar : (2 * (10 ^ 18 * second) : ℚ) < largestPower * largestPower := by
    exact_mod_cast proportions.square_gt
  have hSquare : (largestPower * largestPower : ℚ) ≤
      largestPower * (largestPower * 10 ^ k) := by
    refine mul_le_mul_of_nonneg_left ?_ largestPower_pos.le
    exact le_mul_of_one_le_right largestPower_pos.le (one_le_pow₀ (by norm_num))
  have hSeconds : (n * second : ℚ) ≤ 10 ^ 18 * second :=
    mul_le_mul_of_nonneg_right (by exact_mod_cast hn.le) second_cast_pos.le
  have hQuotient : (n * second / (largestPower * (largestPower * 10 ^ k)) : ℚ) < 1 / 2 := by
    have hSquarePos := mul_pos largestPower_pos largestPower_pos
    rw [div_lt_iff₀ (by linarith)]
    linarith
  linarith

/-- Digits that stand for a number around a finite time are scaled to a finite time
next to it. The last two times are left out where a product may leave them behind. -/
theorem exists_scale {e : Int} (hn : 0 < n) (hDigits : n < 10 ^ 18)
    (hm : m < infiniteMagnitude) (hProduct : 0 ≤ e → m + 2 < infiniteMagnitude)
    (h : Around m (exactTicks n e)) :
    ∃ r, scale (nearest n 1) e = some r ∧ r < infiniteMagnitude ∧ Near (drift e) r m := by
  have hLeast := le_exponent hDigits h
  have hMost := exponent_le hn hm h
  have hPower := proportions.power_ge
  have hLimit : 4 * n ≤ largestPower := by omega
  have hNonzero := nearest_ne_zero hn (by omega)
  rcases Int.lt_or_le e 0 with hNegative | hPositive
  · obtain ⟨k, rfl⟩ : ∃ k : Nat, e = -k := ⟨e.natAbs, by omega⟩
    rcases Nat.lt_or_ge 308 k with hTwice | hOnce
    · obtain ⟨k, rfl⟩ := Nat.exists_eq_add_of_le hTwice.le
      rw [exactTicks_twice] at h
      rw [scale_twice hNonzero (by omega) (by omega), drift, if_pos (by omega)]
      exact ⟨_, rfl, secondQuotient_lt hn hLimit (by omega),
        near_secondQuotient hn hLimit (by omega) hm.le h⟩
    · rw [exactTicks_neg] at h
      rw [scale_of_neg hNonzero (by omega) hOnce, drift, if_neg (by omega)]
      exact ⟨_, rfl, quotient_lt hn hLimit hOnce, near_quotient hn hLimit hOnce hm.le h⟩
  · obtain ⟨k, rfl⟩ := Int.eq_ofNat_of_zero_le hPositive
    have hk : k ≤ 308 := by omega
    rw [exactTicks_of_nonneg] at h
    have hNear := near_product hn hLimit hk hm.le h
    have hFinite : mulMagnitude (nearest n 1) (powerOfTen k) < infiniteMagnitude := by
      have := hProduct hPositive
      have := hNear.above
      omega
    rw [scale_of_nonneg hNonzero hk, if_pos hFinite, drift, if_neg (by omega)]
    exact ⟨_, rfl, hFinite, hNear⟩

end RoughCut.Seconds
