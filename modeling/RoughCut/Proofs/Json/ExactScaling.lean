import RoughCut.Proofs.Json.Scaling

/-!
Scaling that rounds but once. Integers of fifty-three bits and the powers of ten up
to the twenty-second are times themselves, so what is scaled by them is the time
nearest to the exact number.
-/

namespace RoughCut.Seconds

open Json.Number

variable {m n d j : Nat} {k e : Int}

/-- A time is the one nearest to itself. -/
theorem nearestTicks_ticks (hPos : 0 < m) (hm : m ≤ infiniteMagnitude) :
    nearestTicks (ticks m) 1 = m := by
  have hLow := low_lt hPos
  have hHigh := lt_high m
  simp only [interval] at hLow hHigh
  exact Nat.le_antisymm (nearestTicks_le Nat.one_pos (by omega))
    (le_nearestTicks Nat.one_pos hm (by omega))

theorem second_eq_mul (h : j ≤ 1074) : second = 2 ^ j * 2 ^ (1074 - j) := by
  unfold second
  revert h
  generalize 1074 = most
  intro h
  rw [← pow_add, Nat.add_sub_cancel' h]
  rfl

/-- An integer of fifty-three bits is a time. -/
theorem exists_ticks_eq (hn : 0 < n) (h : n < 2 ^ 53) :
    ∃ m, 0 < m ∧ m < infiniteMagnitude ∧ ticks m = n * second := by
  have hBits : n.log2 < 53 := (Nat.log2_lt hn.ne').mpr h
  have hShift : n.log2 + (52 - n.log2) = 52 := by omega
  have hLow : 2 ^ 52 ≤ n * 2 ^ (52 - n.log2) := by
    calc 2 ^ 52 = 2 ^ n.log2 * 2 ^ (52 - n.log2) := by rw [← pow_add, hShift]
      _ ≤ n * 2 ^ (52 - n.log2) := Nat.mul_le_mul_right _ (Nat.log2_self_le hn.ne')
  have hHigh : n * 2 ^ (52 - n.log2) < 2 ^ 53 := by
    calc n * 2 ^ (52 - n.log2) < 2 ^ (n.log2 + 1) * 2 ^ (52 - n.log2) :=
          Nat.mul_lt_mul_of_pos_right Nat.lt_log2_self (Nat.two_pow_pos _)
      _ = 2 ^ 53 := by rw [pow_succ, Nat.mul_right_comm, ← pow_add, hShift]; rfl
  have hTicks : ticks ((1074 - (52 - n.log2)) * 2 ^ 52 + n * 2 ^ (52 - n.log2)) =
      n * 2 ^ (52 - n.log2) * 2 ^ (1074 - (52 - n.log2)) :=
    ticks_of_steps hHigh.le (Or.inr hLow)
  rw [Nat.mul_assoc, ← second_eq_mul (by omega)] at hTicks
  have hLimit : infiniteMagnitude = 2047 * 2 ^ 52 := rfl
  exact ⟨_, by omega, by omega, hTicks⟩

/-- Digits of no more than fifty-three bits are not rounded at all. This is where the
text of a short time differs from that of a long one. -/
theorem ticks_nearest (hn : 0 < n) (h : n < 2 ^ 53) : ticks (nearest n 1) = n * second := by
  obtain ⟨m, hPos, hFinite, hTicks⟩ := exists_ticks_eq hn h
  rw [nearest_eq, ← hTicks, nearestTicks_ticks hPos hFinite.le]

/-- Up to the twenty-second no power of ten has to be rounded. All of them are five to
that power with zeros after it, in no more than fifty-three bits. -/
theorem ticks_powerOfTen (h : j ≤ 22) : ticks (powerOfTen j) = 10 ^ j * second := by
  have hAll : ∀ j ≤ 22, ticks (powerOfTen j) = 10 ^ j * second := by decide +kernel
  exact hAll j h

/-- A quotient that is worth a point for a time is rounded to the time. -/
theorem nearestTicks_of_pointFor {num den : Nat} (hDen : 0 < den) (hm : m ≤ infiniteMagnitude)
    (h : PointFor m k d) (hExact : (num / den : ℚ) = exactTicks d k) :
    nearestTicks num den = m := by
  refine nearestTicks_of_contains hDen (gridUnit_pos k) hm h ?_
  have hDenQ : (den : ℚ) ≠ 0 := by exact_mod_cast hDen.ne'
  have hNum : (num : ℚ) = exactTicks d k * den := (div_eq_iff hDenQ).mp hExact
  have hSame : (d * gridSpacing k * den : ℚ) = 2 * num * gridUnit k := by
    rw [gridSpacing_cast, hNum, exactTicks]
    ring
  exact_mod_cast hSame

/-- Few enough digits and a small enough power are scaled to the time for which they
are written. -/
theorem scale_exact (hn : 0 < n) (hDigits : n < 2 ^ 53) (hLeast : -22 ≤ e) (hMost : e ≤ 22)
    (hm : m < infiniteMagnitude) (h : PointFor m k d)
    (hSame : exactTicks n e = exactTicks d k) : scale (nearest n 1) e = some m := by
  have hPower := proportions.power_ge
  have hNonzero := nearest_ne_zero hn (by omega)
  have hSecond := second_cast_pos.ne'
  rcases Int.lt_or_le e 0 with hNegative | hPositive
  · obtain ⟨j, rfl⟩ : ∃ j : Nat, e = -j := ⟨e.natAbs, by omega⟩
    have hPower : 0 < 10 ^ j * second := Nat.mul_pos (Nat.pow_pos (by decide)) second_pos
    rw [scale_of_neg hNonzero (by omega) (by omega), divMagnitude_eq, ticks_nearest hn hDigits,
      ticks_powerOfTen (by omega)]
    refine congrArg some (nearestTicks_of_pointFor hPower hm.le h ?_)
    rw [← hSame, exactTicks_neg]
    push_cast
    field_simp
  · obtain ⟨j, rfl⟩ := Int.eq_ofNat_of_zero_le hPositive
    have hProduct : nearestTicks (n * second * (10 ^ j * second)) second = m := by
      refine nearestTicks_of_pointFor second_pos hm.le h ?_
      rw [← hSame, exactTicks_of_nonneg]
      push_cast
      field_simp
    rw [scale_of_nonneg hNonzero (by omega), mulMagnitude_eq, ticks_nearest hn hDigits,
      ticks_powerOfTen (by omega), hProduct, if_pos hm]

end RoughCut.Seconds
