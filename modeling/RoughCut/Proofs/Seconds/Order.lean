import Mathlib.Tactic.Common
import RoughCut.Seconds.Basic

/-!
The two orders on times. The total order refines the numeric one: it tells the
two zeros apart and finds a place for NaNs, and agrees with it on all else.
-/

namespace RoughCut.Seconds

variable {x y z : Seconds}

/-- Equal as numbers, which the two zeros are. A NaN is equal to nothing. -/
def SameNumber (x y : Seconds) : Prop :=
  x.le y = true ∧ y.le x = true

/-- Two times are compared as numbers if both are numbers. Zero and negative zero have
one rank. -/
theorem le_eq_true_iff :
    x.le y = true ↔ x.isNaN = false ∧ y.isNaN = false ∧ x.rank ≤ y.rank := by
  simp [le, and_assoc]

theorem le_refl (h : x.isNaN = false) : x.le x = true :=
  le_eq_true_iff.mpr ⟨h, h, Int.le_refl _⟩

/-- A time that is in the middle of two comparisons can be left out. -/
theorem le_trans (hxy : x.le y = true) (hyz : y.le z = true) : x.le z = true := by
  rw [le_eq_true_iff] at hxy hyz ⊢
  exact ⟨hxy.1, hyz.2.1, Int.le_trans hxy.2.2 hyz.2.2⟩

theorem lt_eq_false_of_le (h : x.le y = true) : y.lt x = false := by
  obtain ⟨-, -, hRank⟩ := le_eq_true_iff.mp h
  simp [lt, hRank]

/-- Of two numbers one is not after the other. Only what is no number has no place in
this order. -/
theorem le_total (hx : x.isNaN = false) (hy : y.isNaN = false) :
    x.le y = true ∨ y.le x = true := by
  simp only [le_eq_true_iff, hx, hy, true_and]
  omega

/-- The order by which commands are sorted agrees with that of the numbers. -/
theorem rank_le_of_order_le (h : x.order ≤ y.order) : x.rank ≤ y.rank := by
  unfold order at h
  unfold rank
  cases hx : x.isNegative <;> cases hy : y.isNegative <;>
    simp only [hx, hy, Bool.false_eq_true, if_true, if_false] at h ⊢ <;> omega

/-- Every time has a place of its own in the total order. So the two zeros are apart in
it, which they are not as numbers. -/
theorem eq_of_order_eq (h : x.order = y.order) : x = y := by
  have hx := x.bits.toNat_lt
  have hy := y.bits.toNat_lt
  have hPower : Nat.pow 2 63 = 9223372036854775808 := rfl
  have hBits : x.bits.toNat = y.bits.toNat := by
    simp only [order, isNegative, magnitude, hPower, decide_eq_true_eq] at h
    split at h <;> split at h <;> omega
  cases x
  cases y
  exact congrArg Seconds.mk (UInt64.toNat_inj.mp hBits)

/-- Numbers in the total order are in the numeric order as well. -/
theorem le_of_order_le (hx : x.isNaN = false) (hy : y.isNaN = false)
    (h : x.order ≤ y.order) : x.le y = true :=
  le_eq_true_iff.mpr ⟨hx, hy, rank_le_of_order_le h⟩

/-- The two orders part at the two zeros and nowhere else. -/
theorem order_lt_iff_of_le (h : x.le y = true) : y.order < x.order ↔ x = zero ∧ y = zero.neg := by
  obtain ⟨-, -, hRank⟩ := le_eq_true_iff.mp h
  have hZero : zero.order = 0 := rfl
  have hNegative : zero.neg.order = -1 := rfl
  constructor
  · intro hOrder
    have hPlaces : x.order = 0 ∧ y.order = -1 := by
      unfold order at hOrder ⊢
      unfold rank at hRank
      cases hx : x.isNegative <;> cases hy : y.isNegative <;>
        simp only [hx, hy, Bool.false_eq_true, if_true, if_false] at hOrder hRank ⊢ <;> omega
    exact ⟨eq_of_order_eq (hPlaces.1.trans hZero.symm),
      eq_of_order_eq (hPlaces.2.trans hNegative.symm)⟩
  · rintro ⟨rfl, rfl⟩
    rw [hZero, hNegative]
    decide

theorem sameNumber_refl (h : x.isNaN = false) : SameNumber x x :=
  ⟨le_refl h, le_refl h⟩

/-- The larger of two numbers is equal to the first where the second is at most
that. -/
theorem max_sameNumber_left (h : y.le x = true) : SameNumber (x.max y) x := by
  obtain ⟨_, hNaN, _⟩ := le_eq_true_iff.mp h
  unfold max
  cases hLe : x.le y with
  | true => simpa using ⟨h, hLe⟩
  | false => simpa [hNaN] using sameNumber_refl hNaN

/-- Of two numbers the second is the greater if it is not before the first. With what is
not a number there would be nothing to compare. -/
theorem max_eq_right (hx : x.isNaN = false) (hy : y.isNaN = false) (h : y.le x = false) :
    x.max y = y := by
  rcases le_total hx hy with hLe | hLe
  · simp [max, hLe]
  · rw [h] at hLe
    cases hLe

theorem le_max_right (hx : x.isNaN = false) (hy : y.isNaN = false) : y.le (x.max y) = true := by
  cases hLe : y.le x with
  | true =>
      unfold max
      split
      · exact le_refl hy
      · exact hLe
  | false =>
      rw [max_eq_right hx hy hLe]
      exact le_refl hy

end RoughCut.Seconds
