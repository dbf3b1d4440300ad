import RoughCut.Seconds.Decimal

/-!
The shortest decimal that reads back as a given time. The numbers that are
read as a time form an interval around it. Among the grids of the multiples of
a power of ten the coarsest with a point in that interval gives the fewest
digits, and of its points the one nearest to the time is taken.
-/

namespace RoughCut.Seconds

/-- The numbers that are read as one positive finite time, in half ticks: all
between `low` and `high`, and the two ends with them when `closed`. -/
structure Interval where
  low : Nat
  high : Nat
  closed : Bool

/-- The ends lie halfway to the two neighbours and belong to the even one of
each pair. -/
def interval (m : Nat) : Interval where
  low := ticks (m - 1) + ticks m
  high := ticks m + ticks (m + 1)
  closed := m % 2 = 0

namespace Interval

/-- Whether `num / den` half ticks lie in the interval. -/
def contains (i : Interval) (num den : Nat) : Bool :=
  if i.closed then decide (i.low * den ≤ num ∧ num ≤ i.high * den)
  else decide (i.low * den < num ∧ num < i.high * den)

end Interval

/-- The number of the point nearest to the time on the grid of the multiples
of `10 ^ k`, of two equally near ones the even, among those that are read as it. -/
def gridPoint? (m : Nat) (k : Int) : Option Nat :=
  let up := Nat.pow 10 (-k).toNat
  let spacing := Nat.pow 10 k.toNat * Nat.pow 2 1075
  let place := 2 * ticks m * up
  let below := place / spacing
  let lower := (interval m).contains (below * spacing) up
  let upper := (interval m).contains ((below + 1) * spacing) up
  if lower && upper then some (roundDiv place spacing)
  else if lower then some below
  else if upper then some (below + 1)
  else none

/-- Goes from the grid of `10 ^ k` to ever finer ones, `grids` of them at most,
and stops at the first that has a point for the time. -/
def firstGridPoint (m : Nat) (k : Int) : Nat → Nat × Int
  | 0 => (0, k)
  | grids + 1 =>
    match gridPoint? m k with
    | some d => (d, k)
    | none => firstGridPoint m (k - 1) grids

/-- A power of ten above every number that is read as the time: a thousand and
more times the place of its leading bit. -/
def coarsest (m : Nat) : Int :=
  ((ticks m).log2 - 1072 : Int) * 1233 / 4096 + 2

/-- The shortest decimal for a positive finite magnitude. Twenty-five grids
lead from the coarsest to one finer than the distance between neighbours. -/
def shortestMagnitude (m : Nat) : Nat × Int :=
  firstGridPoint m (coarsest m) 25

/-- The shortest decimal that reads back as the finite time. -/
def shortest (x : Seconds) : Decimal :=
  if x.magnitude = 0 then ⟨x.isNegative, 0, 0⟩
  else
    let (digits, exponent) := shortestMagnitude x.magnitude
    ⟨x.isNegative, digits, exponent⟩

end RoughCut.Seconds
