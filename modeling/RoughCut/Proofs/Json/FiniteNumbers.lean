import RoughCut.Proofs.Json.ReadTimes

/-!
The numbers of JSON texts are finite. Digits are gathered into sixty-four bits, a
division by a power of ten leads no further from zero, and a product that would be
infinite is no number at all.
-/

namespace RoughCut

namespace Seconds

open Json.Number

variable {m n k : Nat}

/-- Below the infinite magnitude every time is finite, whatever its sign. -/
theorem isFinite_ofMagnitude (negative : Bool) (h : m < infiniteMagnitude) :
    (ofMagnitude negative m).isFinite = true := by
  have hPlace : m < Nat.pow 2 63 := h.trans (by decide)
  rw [isFinite, magnitude_ofMagnitude negative hPlace]
  exact decide_eq_true h

theorem gatherLimit_le : gatherLimit ≤ largestPower :=
  (by decide : gatherLimit ≤ Nat.pow 10 20).trans (pow_ten_le (by decide))

/-- What is gathered in a machine word is far from infinite. -/
theorem nearest_lt (h : n ≤ gatherLimit) : nearest n 1 < infiniteMagnitude := by
  rw [nearest_eq]
  refine nearestTicks_lt Nat.one_pos ?_
  rw [Nat.mul_one]
  exact Nat.mul_le_mul_right second (h.trans gatherLimit_le)

theorem second_le_powerOfTen (hPos : 0 < k) (hk : k ≤ 308) : second ≤ ticks (powerOfTen k) := by
  have hBelow := (within_powerOfTen hk).below
  have hTen : (10 : ℚ) ≤ 10 ^ k := le_self_pow₀ (by norm_num) (by omega)
  have hPower : (10 * second : ℚ) ≤ 10 ^ k * second :=
    mul_le_mul_of_nonneg_right hTen second_cast_pos.le
  have hTicks : (0 : ℚ) ≤ ticks (powerOfTen k) := Nat.cast_nonneg _
  have hOff : roundOff ≤ 1 := by norm_num [roundOff]
  have hDouble : (ticks (powerOfTen k) * (1 + roundOff) : ℚ) ≤ ticks (powerOfTen k) * 2 :=
    mul_le_mul_of_nonneg_left (by linarith) hTicks
  have hSecond : (second : ℚ) ≤ ticks (powerOfTen k) := by
    have := second_cast_pos
    linarith
  exact_mod_cast hSecond

theorem divMagnitude_le (hPos : 0 < k) (hk : k ≤ 308) (m : Nat) :
    divMagnitude m (powerOfTen k) ≤ m := by
  have hPower := second_le_powerOfTen hPos hk
  have hDen : 0 < ticks (powerOfTen k) := second_pos.trans_le hPower
  have hNext : ticks m < ticks (m + 1) := ticks_strictMono (Nat.lt_succ_self m)
  rw [divMagnitude_eq]
  refine nearestTicks_le hDen ?_
  calc 2 * (ticks m * second) = (ticks m + ticks m) * second := by ring
    _ ≤ (ticks m + ticks m) * ticks (powerOfTen k) := Nat.mul_le_mul_left _ hPower
    _ < (ticks m + ticks (m + 1)) * ticks (powerOfTen k) :=
      Nat.mul_lt_mul_of_pos_right (by omega) hDen

end Seconds

namespace Json.Number

open Seconds

variable {m r rounds last : Nat} {negative : Bool} {e : Int} {n : Number}

/-- To divide by powers of ten again and again makes no time greater. -/
theorem scaleDown_le (hPos : 0 < last) (hLast : last ≤ 308) (rounds m : Nat) :
    scaleDown m rounds last ≤ m := by
  induction rounds generalizing m with
  | zero => exact divMagnitude_le hPos hLast m
  | succ rounds ih =>
      rw [scaleDown]
      split
      · exact Nat.zero_le m
      · exact (ih _).trans (divMagnitude_le (by decide) (Nat.le_refl 308) m)

/-- Scaling leads from a finite time to a finite time, or to none. -/
theorem lt_of_scale (hm : m < infiniteMagnitude) (h : scale m e = some r) :
    r < infiniteMagnitude := by
  unfold scale at h
  split at h
  · cases h
    decide
  · split at h
    · rw [← Option.some.inj h]
      exact (scaleDown_le (Nat.succ_pos _) (Nat.mod_lt _ (by decide)) _ m).trans_lt hm
    · split at h
      · cases h
      · dsimp only at h
        split at h
        · next hFinite => rwa [← Option.some.inj h]
        · cases h

/-- What is gathered never runs over the limit, since digits that would do that are
dropped. -/
theorem gather_le {n : Nat} (hn : n ≤ gatherLimit) (ds : List UInt8) :
    (gather n ds).1 ≤ gatherLimit := by
  induction ds generalizing n with
  | nil => exact hn
  | cons b ds ih =>
      rw [gather]
      split
      · next hFits => exact ih hFits
      · exact hn

/-- A number with a point or an exponent is a finite time. What is not is out of range
and is refused. -/
theorem isFinite_of_ofDigits {whole fraction : List UInt8}
    (h : ofDigits negative whole fraction e = .ok n) : n.toSeconds.isFinite = true := by
  unfold ofDigits at h
  cases hMagnitude : magnitude? whole fraction e with
  | none =>
      rw [hMagnitude] at h
      cases h
  | some m =>
      rw [hMagnitude] at h
      cases h
      have hDigits := gather_le (gather_le (Nat.zero_le _) whole) fraction
      exact isFinite_ofMagnitude negative (lt_of_scale (nearest_lt hDigits) hMagnitude)

theorem isFinite_ofInt {i : Int} (h : i.natAbs ≤ gatherLimit) :
    (Seconds.ofInt i).isFinite = true :=
  isFinite_ofMagnitude _ (nearest_lt h)

/-- A number of digits alone is a finite time, whether or not they fit in a machine
word. -/
theorem isFinite_of_ofWhole {whole : List UInt8} (h : ofWhole negative whole = .ok n) :
    n.toSeconds.isFinite = true := by
  have hDigits := gather_le (Nat.zero_le _) whole
  unfold ofWhole at h
  generalize gather 0 whole = gathered at *
  obtain ⟨i, lost⟩ := gathered
  dsimp only at h hDigits
  split at h
  · cases h
    exact isFinite_ofInt (by simpa using hDigits)
  · split at h
    · cases h
      exact isFinite_ofInt (by simpa using hDigits)
    · exact isFinite_of_ofDigits h

/-- Whatever number is read, it is finite as a time. A number that is too large for that
is no number to the reader. -/
theorem isFinite_of_read {s t : List UInt8} (h : read negative s = .ok (n, t)) :
    n.toSeconds.isFinite = true := by
  obtain ⟨⟨whole, s₁⟩, -, h⟩ := bind_eq_ok_iff.mp h
  obtain ⟨⟨fraction, s₂⟩, -, h⟩ := bind_eq_ok_iff.mp h
  obtain ⟨⟨power, s₃⟩, -, h⟩ := bind_eq_ok_iff.mp h
  cases fraction with
  | none =>
      cases power with
      | none =>
          obtain ⟨n', hNumber, hSame⟩ := bind_eq_ok_iff.mp h
          cases hSame
          exact isFinite_of_ofWhole hNumber
      | some e =>
          obtain ⟨n', hNumber, hSame⟩ := bind_eq_ok_iff.mp h
          cases hSame
          exact isFinite_of_ofDigits hNumber
  | some ds =>
      obtain ⟨n', hNumber, hSame⟩ : ∃ n', ofDigits negative whole ds (power.getD 0) = .ok n' ∧
          Except.ok (n', s₃) = Except.ok (ε := Fault) (n, t) := by
        cases power <;> exact bind_eq_ok_iff.mp h
      cases hSame
      exact isFinite_of_ofDigits hNumber

end Json.Number

end RoughCut
