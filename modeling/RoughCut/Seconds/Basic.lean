/-!
A moment or a length in seconds, kept as the sixty-four bits of a binary
floating-point number. Equality is equality of bits, so the two zeros differ
and a NaN equals itself. The module fixes what a bit pattern means and the two
orders on them: `order` places every pattern, the two zeros and the NaNs
included, and `rank` compares numbers as numbers.
-/

namespace RoughCut

/-- A binary floating-point number of seconds, told apart by its bits. -/
structure Seconds where
  bits : UInt64
  deriving DecidableEq

namespace Seconds

/-- The magnitude of infinity. Smaller magnitudes are finite, larger ones are NaN. -/
def infiniteMagnitude : Nat := 2047 * Nat.pow 2 52

/-- The bits below the sign bit. Between numbers of one sign a larger
magnitude is a larger distance from zero. -/
def magnitude (x : Seconds) : Nat :=
  x.bits.toNat % Nat.pow 2 63

/-- Whether the sign bit is set, which it is for `-0.0` as well. -/
def isNegative (x : Seconds) : Bool :=
  decide (Nat.pow 2 63 ≤ x.bits.toNat)

/-- The time with the given sign and the given bits below it. -/
def ofMagnitude (negative : Bool) (m : Nat) : Seconds :=
  ⟨UInt64.ofNat (if negative then Nat.pow 2 63 + m else m)⟩

def zero : Seconds := ofMagnitude false 0

def infinity : Seconds := ofMagnitude false infiniteMagnitude

/-- The NaN that stands for "not a number" wherever one arises. -/
def nan : Seconds := ofMagnitude false (infiniteMagnitude + Nat.pow 2 51)

instance : Inhabited Seconds := ⟨zero⟩

def isNaN (x : Seconds) : Bool :=
  decide (infiniteMagnitude < x.magnitude)

/-- Neither infinite nor NaN. -/
def isFinite (x : Seconds) : Bool :=
  decide (x.magnitude < infiniteMagnitude)

/-- The time with the other sign. -/
def neg (x : Seconds) : Seconds :=
  ofMagnitude (!x.isNegative) x.magnitude

/-- The distance from zero of a number of this magnitude, counted in the
smallest positive distance there is, `2 ^ (-1074)` seconds. Every finite time
is a whole number of these ticks. -/
def ticks (m : Nat) : Nat :=
  let exponent := m / Nat.pow 2 52
  let fraction := m % Nat.pow 2 52
  if exponent = 0 then fraction else (Nat.pow 2 52 + fraction) * Nat.pow 2 (exponent - 1)

/-- The place in the total order: negative NaNs, then the numbers from
`-inf` to `-0.0`, then those from `0.0` to `inf`, then the other NaNs. -/
def order (x : Seconds) : Int :=
  if x.isNegative then -(x.magnitude : Int) - 1 else x.magnitude

/-- The place among the numbers, one for both zeros. It means nothing for a NaN. -/
def rank (x : Seconds) : Int :=
  if x.isNegative then -(x.magnitude : Int) else x.magnitude

/-- Numerically at most. A NaN is at most nothing and nothing is at most a NaN. -/
def le (x y : Seconds) : Bool :=
  !x.isNaN && !y.isNaN && decide (x.rank ≤ y.rank)

/-- Numerically less. -/
def lt (x y : Seconds) : Bool :=
  !x.isNaN && !y.isNaN && decide (x.rank < y.rank)

/-- The larger of two numbers, the second when they are equal. A NaN loses to
any number. -/
def max (x y : Seconds) : Seconds :=
  if x.isNaN || x.le y then y else x

end Seconds

end RoughCut
