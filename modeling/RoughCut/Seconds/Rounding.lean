import RoughCut.Seconds.Basic

/-!
Exact quotients of natural numbers rounded to the nearest time, a tie going
to the even neighbour, and the arithmetic that the library needs: every
operation forms its exact result first and rounds once.
-/

namespace RoughCut

/-- The quotient rounded to the nearest natural number, a half going to the
even neighbour. -/
def roundDiv (num den : Nat) : Nat :=
  let q := num / den
  let r := num % den
  if 2 * r < den ∨ (2 * r = den ∧ q % 2 = 0) then q else q + 1

namespace Seconds

/-- The magnitude nearest to `num / den` ticks. The ticks between neighbours
double from one power of two to the next, and counting from zero the
magnitudes run through the neighbours without a gap; what lies beyond the last
of them is infinite. -/
def nearestTicks (num den : Nat) : Nat :=
  let step := (num / den).log2 - 52
  min infiniteMagnitude (step * Nat.pow 2 52 + roundDiv num (den * Nat.pow 2 step))

/-- The magnitude nearest to `num / den` seconds. -/
def nearest (num den : Nat) : Nat :=
  nearestTicks (num * Nat.pow 2 1074) den

/-- The time nearest to a whole number of seconds. -/
def ofInt (n : Int) : Seconds :=
  ofMagnitude (decide (n < 0)) (nearest n.natAbs 1)

/-- The product of two finite magnitudes. -/
def mulMagnitude (a b : Nat) : Nat :=
  nearestTicks (ticks a * ticks b) (Nat.pow 2 1074)

/-- The quotient of two finite magnitudes, the second of which is not zero. -/
def divMagnitude (a b : Nat) : Nat :=
  nearestTicks (ticks a * Nat.pow 2 1074) (ticks b)

/-- The exact place of a finite time on the line of ticks. -/
def toTicks (x : Seconds) : Int :=
  if x.isNegative then -(ticks x.magnitude : Int) else ticks x.magnitude

/-- The difference of two times, rounded once. A difference of zero is `0.0`
unless the first is `-0.0` and the second `0.0`. -/
def sub (x y : Seconds) : Seconds :=
  if x.isNaN || y.isNaN then nan
  else if !x.isFinite then (if y.isFinite || x.isNegative != y.isNegative then x else nan)
  else if !y.isFinite then y.neg
  else
    let d := x.toTicks - y.toTicks
    if d = 0 then ofMagnitude (x.isNegative && !y.isNegative) 0
    else ofMagnitude (decide (d < 0)) (nearestTicks d.natAbs 1)

end Seconds

end RoughCut
