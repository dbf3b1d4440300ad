import RoughCut.Proofs.Seconds.Ticks
import RoughCut.Seconds.Shortest

/-!
The shortest decimal of a time. The search goes from a grid on which the first
point lies beyond the time to one finer than the numbers that are read as it, so
it stops on the way, and the point at which it stops is one of these numbers and
has at most seventeen digits.
-/

namespace RoughCut.Seconds

variable {m d : Nat} {k : Int}

/-- How many half ticks apart the multiples of `10 ^ k` are, over `gridUnit k`. -/
def gridSpacing (k : Int) : Nat :=
  Nat.pow 10 k.toNat * Nat.pow 2 1075

def gridUnit (k : Int) : Nat :=
  Nat.pow 10 (-k).toNat

theorem gridUnit_pos (k : Int) : 0 < gridUnit k :=
  Nat.pow_pos (by decide)

theorem gridSpacing_pos (k : Int) : 0 < gridSpacing k := by
  unfold gridSpacing
  generalize 1075 = bits
  exact Nat.mul_pos (Nat.pow_pos (by decide)) (Nat.pow_pos (by decide))

/-- The next coarser grid is ten times as coarse. -/
theorem gridSpacing_succ (k : Int) :
    gridSpacing (k + 1) * gridUnit k = 10 * gridSpacing k * gridUnit (k + 1) := by
  unfold gridSpacing gridUnit
  generalize Nat.pow 2 1075 = halfTicks
  rcases Int.lt_or_le k 0 with hNegative | hPositive
  · have hUp : (-k).toNat = (-(k + 1)).toNat + 1 := by omega
    have hHere : k.toNat = 0 := by omega
    have hNext : (k + 1).toNat = 0 := by omega
    simp only [hUp, hHere, hNext, Nat.pow_eq, pow_succ]
    ring
  · have hUp : (k + 1).toNat = k.toNat + 1 := by omega
    have hHere : (-k).toNat = 0 := by omega
    have hNext : (-(k + 1)).toNat = 0 := by omega
    simp only [hUp, hHere, hNext, Nat.pow_eq, pow_succ]
    ring

/-- A point of a grid is read as the time, the ends of its interval included. -/
structure OnGrid (m : Nat) (k : Int) (d : Nat) : Prop where
  low : (interval m).low * gridUnit k ≤ d * gridSpacing k
  high : d * gridSpacing k ≤ (interval m).high * gridUnit k

/-- A point of a grid is read as the time, an end of its interval only if that belongs
to it. -/
def PointFor (m : Nat) (k : Int) (d : Nat) : Prop :=
  (interval m).contains (d * gridSpacing k) (gridUnit k) = true

/-- What is read as a time lies in its interval, be it at an end. -/
theorem PointFor.onGrid (h : PointFor m k d) : OnGrid m k d := by
  unfold PointFor Interval.contains at h
  split_ifs at h
  · simp only [decide_eq_true_eq] at h
    exact ⟨h.1, h.2⟩
  · simp only [decide_eq_true_eq] at h
    exact ⟨h.1.le, h.2.le⟩

/-- What lies strictly between the ends of an interval is read as its time, whether or
not the ends are. -/
theorem contains_of_lt {i : Interval} {num den : Nat} (hLow : i.low * den < num)
    (hHigh : num < i.high * den) : i.contains num den = true := by
  unfold Interval.contains
  split_ifs
  · exact decide_eq_true ⟨hLow.le, hHigh.le⟩
  · exact decide_eq_true ⟨hLow, hHigh⟩

/-- A quotient in the interval of a time is rounded to it. -/
theorem nearestTicks_of_contains {num den a b : Nat} (hDen : 0 < den) (hb : 0 < b)
    (hm : m ≤ infiniteMagnitude) (h : (interval m).contains a b = true)
    (hSame : a * den = 2 * num * b) : nearestTicks num den = m := by
  have hLow : (interval m).low * den * b = (interval m).low * b * den := Nat.mul_right_comm ..
  have hHigh : (interval m).high * den * b = (interval m).high * b * den := Nat.mul_right_comm ..
  unfold Interval.contains at h
  split_ifs at h with hClosed
  · simp only [decide_eq_true_eq] at h
    have hEven : m % 2 = 0 := of_decide_eq_true hClosed
    refine Nat.le_antisymm (nearestTicks_le_of_even hDen hEven ?_)
      (le_nearestTicks_of_even hDen hm hEven ?_)
    · refine Nat.le_of_mul_le_mul_right ?_ hb
      rw [← hSame]
      exact (Nat.mul_le_mul_right den h.2).trans_eq hHigh.symm
    · refine Nat.le_of_mul_le_mul_right ?_ hb
      rw [← hSame]
      exact hLow.trans_le (Nat.mul_le_mul_right den h.1)
  · simp only [decide_eq_true_eq] at h
    refine Nat.le_antisymm (nearestTicks_le hDen ?_) (le_nearestTicks hDen hm ?_)
    · refine Nat.lt_of_mul_lt_mul_right (a := b) ?_
      rw [← hSame]
      exact (Nat.mul_lt_mul_of_pos_right h.2 hDen).trans_eq hHigh.symm
    · refine Nat.lt_of_mul_lt_mul_right (a := b) ?_
      rw [← hSame]
      exact hLow.trans_lt (Nat.mul_lt_mul_of_pos_right h.1 hDen)

/-- The grid in the terms of its spacing and its unit. -/
theorem gridPoint?_eq (m : Nat) (k : Int) :
    gridPoint? m k =
      let below := 2 * ticks m * gridUnit k / gridSpacing k
      let lower := (interval m).contains (below * gridSpacing k) (gridUnit k)
      let upper := (interval m).contains ((below + 1) * gridSpacing k) (gridUnit k)
      if lower && upper then some (roundDiv (2 * ticks m * gridUnit k) (gridSpacing k))
      else if lower then some below
      else if upper then some (below + 1)
      else none :=
  rfl

/-- A point that the search finds on a grid is read as the time for which it was looked.
-/
theorem pointFor_of_gridPoint? (h : gridPoint? m k = some d) : PointFor m k d := by
  rw [gridPoint?_eq] at h
  dsimp only at h
  split_ifs at h with hBoth hLower hUpper
  · obtain ⟨hLower, hUpper⟩ := Bool.and_eq_true_iff.mp hBoth
    obtain rfl := Option.some.inj h
    unfold roundDiv
    dsimp only
    split_ifs
    · exact hLower
    · exact hUpper
  · obtain rfl := Option.some.inj h
    exact hLower
  · obtain rfl := Option.some.inj h
    exact hUpper

theorem low_lt (hm : 0 < m) : (interval m).low < 2 * ticks m := by
  have hBefore : ticks (m - 1) < ticks m := ticks_strictMono (by omega)
  simp only [interval]
  omega

theorem lt_high (m : Nat) : 2 * ticks m < (interval m).high := by
  have hAfter : ticks m < ticks (m + 1) := ticks_strictMono (Nat.lt_succ_self m)
  simp only [interval]
  omega

/-- A grid without a point for the time is no finer than its interval is wide. -/
theorem width_le_of_gridPoint?_none (hm : 0 < m) (h : gridPoint? m k = none) :
    ((interval m).high - (interval m).low) * gridUnit k ≤ gridSpacing k := by
  have hUnit := gridUnit_pos k
  have hLow : (interval m).low * gridUnit k < 2 * ticks m * gridUnit k :=
    Nat.mul_lt_mul_of_pos_right (low_lt hm) hUnit
  have hHigh : 2 * ticks m * gridUnit k < (interval m).high * gridUnit k :=
    Nat.mul_lt_mul_of_pos_right (lt_high m) hUnit
  have hBelow := Nat.div_mul_le_self (2 * ticks m * gridUnit k) (gridSpacing k)
  have hAbove := Nat.lt_mul_of_div_lt (Nat.lt_succ_self _) (gridSpacing_pos k)
    (a := 2 * ticks m * gridUnit k)
  rw [gridPoint?_eq] at h
  dsimp only at h
  generalize 2 * ticks m * gridUnit k / gridSpacing k = below at *
  -- neither neighbour on the grid is read as the time, so both lie beyond its interval
  split_ifs at h with hBoth hLower hUpper
  have hLowEnd : below * gridSpacing k ≤ (interval m).low * gridUnit k := by
    by_contra hInside
    exact hLower (contains_of_lt (Nat.not_le.mp hInside) (Nat.lt_of_le_of_lt hBelow hHigh))
  have hHighEnd : (interval m).high * gridUnit k ≤ (below + 1) * gridSpacing k := by
    by_contra hInside
    exact hUpper (contains_of_lt (Nat.lt_trans hLow hAbove) (Nat.not_le.mp hInside))
  rw [Nat.sub_mul]
  rw [Nat.add_mul, Nat.one_mul] at hHighEnd
  omega

/-- The search stops at the first grid with a point, if it comes to one. -/
theorem firstGridPoint_spec {grids : Nat}
    (h : ∃ j : Nat, j < grids ∧ gridPoint? m (k - j) ≠ none) :
    ∃ d k', firstGridPoint m k grids = (d, k') ∧ gridPoint? m k' = some d ∧
      (k' = k ∨ gridPoint? m (k' + 1) = none) := by
  induction grids generalizing k with
  | zero =>
      obtain ⟨j, hj, _⟩ := h
      cases hj
  | succ grids ih =>
      rw [firstGridPoint]
      cases hHere : gridPoint? m k with
      | some d => exact ⟨d, k, rfl, hHere, Or.inl rfl⟩
      | none =>
          obtain ⟨j, hj, hPoint⟩ := h
          cases j with
          | zero => exact absurd hHere (by simpa using hPoint)
          | succ j =>
              have hLater : k - (j + 1 : Nat) = k - 1 - j := by omega
              obtain ⟨d, k', hFirst, hPoint, hBefore⟩ :=
                ih ⟨j, by omega, by rwa [hLater] at hPoint⟩
              refine ⟨d, k', hFirst, hPoint, Or.inr ?_⟩
              rcases hBefore with rfl | hBefore
              · simpa only [Int.sub_add_cancel] using hHere
              · exact hBefore

/-- The coarsest grid for a time with its leading bit at this place. -/
def coarsestAt (place : Nat) : Int :=
  ((place : Int) - 1072) * 1233 / 4096 + 2

/-- How the grids of the search compare with powers of two. -/
def encloses (place : Nat) : Bool :=
  Nat.ble (Nat.pow 2 (place + 3) * gridUnit (coarsestAt place)) (gridSpacing (coarsestAt place)) &&
    Nat.ble (gridSpacing (coarsestAt place - 24))
      (Nat.pow 2 (place - 52) * gridUnit (coarsestAt place - 24))

/-- They enclose what they have to for the leading bits of all finite times. -/
theorem encloses_of_lt {place : Nat} (h : place < 2098) : encloses place = true := by
  have hAll : (List.range 2098).all encloses = true := by
    decide +kernel
  exact List.all_eq_true.mp hAll place (List.mem_range.mpr h)

/-- The numbers that are read as a time reach halfway over the gaps on both sides. The
gap before a power of two is half of the one after it. -/
theorem interval_width (hm : 0 < m) :
    (interval m).high = (interval m).low + (gap (m - 1) + gap m) := by
  have hBefore : ticks (m - 1 + 1) = ticks (m - 1) + gap (m - 1) := ticks_succ (m - 1)
  have hAfter := ticks_succ m
  rw [Nat.sub_add_cancel hm] at hBefore
  simp only [interval]
  omega

/-- They are told to within the last of fifty-three bits. -/
theorem high_le (hm : 0 < m) : (interval m).high ≤ 2 ^ 53 * (gap (m - 1) + gap m) := by
  have hHere := ticks_succ_le (m - 1)
  have hAfter := ticks_succ_le m
  rw [Nat.sub_add_cancel hm] at hHere
  simp only [interval]
  omega

theorem low_pos (hm : 0 < m) : 0 < (interval m).low := by
  have hPos : ticks 0 < ticks m := ticks_strictMono hm
  simp only [interval]
  omega

/-- Where the leading bit lies below a power of two. -/
theorem log2_ticks_lt {e : Nat} (h : m < e * 2 ^ 52 + 2 ^ 52) : (ticks m).log2 < 52 + e := by
  have hPower : ticks (e * 2 ^ 52 + 2 ^ 52) = 2 ^ 52 * 2 ^ e :=
    ticks_of_steps (by decide) (Or.inr (Nat.le_refl _))
  have hBelow : ticks m < ticks (e * 2 ^ 52 + 2 ^ 52) := ticks_strictMono h
  rw [hPower, ← pow_add] at hBelow
  rcases Nat.eq_zero_or_pos (ticks m) with hZero | hPos
  · simp [hZero]
  · exact (Nat.log2_lt hPos.ne').mpr hBelow

/-- The leading bits of all finite times are those for which the grids enclose. -/
theorem encloses_of_finite (h : m < infiniteMagnitude) : encloses (ticks m).log2 = true :=
  encloses_of_lt (log2_ticks_lt (e := 2046) h)

/-- The grid on which the search begins depends on the place of the leading bit alone.
So a fact about it is a fact about so many places. -/
theorem coarsest_eq (m : Nat) : coarsest m = coarsestAt (ticks m).log2 :=
  rfl

/-- No point of the coarsest grid but zero is near the time. -/
theorem high_lt_coarsest (hm : 0 < m) (hFinite : m < infiniteMagnitude) :
    (interval m).high * gridUnit (coarsest m) < gridSpacing (coarsest m) := by
  have hEnclosed := encloses_of_finite hFinite
  simp only [encloses, Bool.and_eq_true, Nat.ble_eq, ← coarsest_eq, Nat.pow_eq] at hEnclosed
  have hLeading : ticks m < 2 ^ ((ticks m).log2 + 1) := Nat.lt_log2_self
  have hGap := gap_le_ticks hm
  have hAfter := ticks_succ m
  have hHigh : (interval m).high < 2 ^ ((ticks m).log2 + 3) := by
    simp only [interval]
    rw [pow_succ] at hLeading
    rw [pow_succ, pow_succ, pow_succ]
    omega
  exact Nat.lt_of_lt_of_le (Nat.mul_lt_mul_of_pos_right hHigh (gridUnit_pos _)) hEnclosed.1

/-- The last grid of the search has a point for the time. So the search comes to an end
with digits, and these are few. -/
theorem gridPoint?_finest (hm : 0 < m) (hFinite : m < infiniteMagnitude) :
    gridPoint? m (coarsest m - 24) ≠ none := by
  intro hNone
  have hEnclosed := encloses_of_finite hFinite
  simp only [encloses, Bool.and_eq_true, Nat.ble_eq, ← coarsest_eq, Nat.pow_eq] at hEnclosed
  have hWidth := width_le_of_gridPoint?_none hm hNone
  have hLeading : 2 ^ (ticks m).log2 ≤ ticks m :=
    Nat.log2_self_le (Nat.ne_of_gt (Nat.lt_of_lt_of_le (gap_pos m) (gap_le_ticks hm)))
  have hGap : 2 ^ ((ticks m).log2 - 52) ≤ gap m := by
    have hBits : 2 ^ (ticks m).log2 < 2 ^ (53 + (m / 2 ^ 52 - 1)) := by
      rw [pow_add]
      exact Nat.lt_of_lt_of_le
        (Nat.lt_of_le_of_lt hLeading (ticks_strictMono (Nat.lt_succ_self m))) (ticks_succ_le m)
    have hPlace := (Nat.pow_lt_pow_iff_right (by decide)).mp hBits
    exact Nat.pow_le_pow_right (by decide) (by omega)
  have hWider : 2 ^ ((ticks m).log2 - 52) < (interval m).high - (interval m).low := by
    have hBefore := gap_pos (m - 1)
    rw [interval_width hm]
    omega
  have hMore := Nat.mul_lt_mul_of_pos_right hWider (gridUnit_pos (coarsest m - 24))
  omega

/-- The point at which the search stops is read as the time and has at most
seventeen digits. -/
theorem shortestMagnitude_spec (hm : 0 < m) (hFinite : m < infiniteMagnitude) :
    ∃ d k, shortestMagnitude m = (d, k) ∧ PointFor m k d ∧ 0 < d ∧ d < 10 ^ 17 := by
  have hSome : ∃ j : Nat, j < 25 ∧ gridPoint? m (coarsest m - j) ≠ none :=
    ⟨24, by decide, gridPoint?_finest hm hFinite⟩
  obtain ⟨d, k, hFirst, hPoint, hBefore⟩ := firstGridPoint_spec hSome
  have hFor := pointFor_of_gridPoint? hPoint
  have hGrid := hFor.onGrid
  have hPos : 0 < d := by
    have hLow := Nat.mul_pos (low_pos hm) (gridUnit_pos k)
    by_contra hZero
    obtain rfl : d = 0 := by omega
    have := hGrid.low
    omega
  refine ⟨d, k, hFirst, hFor, hPos, ?_⟩
  rcases hBefore with rfl | hNone
  · have hFirstPoint : gridSpacing (coarsest m) ≤ d * gridSpacing (coarsest m) :=
      Nat.le_mul_of_pos_left _ hPos
    have hCoarse := high_lt_coarsest hm hFinite
    have hHigh := hGrid.high
    omega
  · have hWidth := width_le_of_gridPoint?_none hm hNone
    rw [interval_width hm, Nat.add_sub_cancel_left] at hWidth
    have hUnits := Nat.mul_pos (gridSpacing_pos k) (gridUnit_pos (k + 1))
    have hDigits : d * (gridSpacing k * gridUnit (k + 1)) ≤
        2 ^ 53 * 10 * (gridSpacing k * gridUnit (k + 1)) := by
      calc d * (gridSpacing k * gridUnit (k + 1))
          = d * gridSpacing k * gridUnit (k + 1) := by ring
        _ ≤ 2 ^ 53 * (gap (m - 1) + gap m) * gridUnit k * gridUnit (k + 1) :=
          Nat.mul_le_mul_right _
            (hGrid.high.trans (Nat.mul_le_mul_right _ (high_le hm)))
        _ = 2 ^ 53 * ((gap (m - 1) + gap m) * gridUnit (k + 1) * gridUnit k) := by ring
        _ ≤ 2 ^ 53 * (gridSpacing (k + 1) * gridUnit k) :=
          Nat.mul_le_mul_left _ (Nat.mul_le_mul_right _ hWidth)
        _ = 2 ^ 53 * 10 * (gridSpacing k * gridUnit (k + 1)) := by
          rw [gridSpacing_succ]
          ring
    exact Nat.lt_of_le_of_lt (Nat.le_of_mul_le_mul_right hDigits hUnits) (by decide)

end RoughCut.Seconds
