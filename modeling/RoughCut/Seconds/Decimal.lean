import RoughCut.Seconds.Rounding

/-!
Decimal numbers as they are written by hand or by a tool: an optional sign,
digits with at most one point among or beside them, and an optional exponent.
A decimal has an exact value, and `Decimal.nearest` is the time closest to it,
however many digits it has. The words for infinity and NaN are read as well,
in any case and with a sign.
-/

namespace RoughCut

/-- The number `digits * 10 ^ exponent`, or its negative. -/
structure Decimal where
  negative : Bool
  digits : Nat
  exponent : Int
  deriving DecidableEq

namespace Decimal

/-- The magnitude nearest to `digits * 10 ^ exponent`. A nonzero number of
which the last digit stands for more than `10 ^ 309` is beyond every finite
time, and one below `10 ^ (-325)` is nearer to zero than to any other; both
are settled before a power of ten is formed. -/
def magnitude (digits : Nat) (exponent : Int) : Nat :=
  if digits = 0 then 0
  else if 309 < exponent then Seconds.infiniteMagnitude
  else if exponent + (Nat.toDigits 10 digits).length < -325 then 0
  else Seconds.nearest (digits * Nat.pow 10 exponent.toNat) (Nat.pow 10 (-exponent).toNat)

/-- The time nearest to the decimal, a tie going to the even neighbour. -/
def nearest (d : Decimal) : Seconds :=
  Seconds.ofMagnitude d.negative (magnitude d.digits d.exponent)

/-- Takes a leading sign off; a number without one is not negative. -/
def splitSign : List Char → Bool × List Char
  | '-' :: s => (true, s)
  | '+' :: s => (false, s)
  | s => (false, s)

/-- The exponent that may end a decimal: nothing, or `e` or `E`, an optional
sign and at least one digit. -/
def exponent? : List Char → Option Int
  | [] => some 0
  | c :: s =>
    if c = 'e' ∨ c = 'E' then
      let (negative, ds) := splitSign s
      if ds = [] ∨ ¬ ds.all Char.isDigit then none
      else
        let n := Nat.ofDigitChars 10 ds 0
        some (if negative then -(n : Int) else n)
    else none

/-- Takes the fraction off: a point and the digits after it, if there is one. -/
def splitFraction : List Char → List Char × List Char
  | '.' :: s => (s.takeWhile Char.isDigit, s.dropWhile Char.isDigit)
  | s => ([], s)

/-- Reads an unsigned decimal. There has to be a digit on one side of the point. -/
def ofUnsigned? (negative : Bool) (s : List Char) : Option Decimal :=
  let whole := s.takeWhile Char.isDigit
  let (fraction, rest) := splitFraction (s.dropWhile Char.isDigit)
  if whole = [] ∧ fraction = [] then none
  else (exponent? rest).map fun e =>
    ⟨negative, Nat.ofDigitChars 10 (whole ++ fraction) 0, e - fraction.length⟩

def ofChars? (s : List Char) : Option Decimal :=
  let (negative, rest) := splitSign s
  ofUnsigned? negative rest

end Decimal

namespace Seconds

/-- The times that are written as words, in any case: infinity and NaN. -/
def ofWord? (negative : Bool) (s : List Char) : Option Seconds :=
  let word := String.ofList (s.map Char.toLower)
  if word = "inf" ∨ word = "infinity" then some (ofMagnitude negative infiniteMagnitude)
  else if word = "nan" then some (if negative then nan.neg else nan)
  else none

/-- Reads a written number of seconds, rounding a decimal to the nearest time. -/
def ofText? (text : String) : Option Seconds :=
  match Decimal.ofChars? text.toList with
  | some d => some d.nearest
  | none =>
    let (negative, rest) := Decimal.splitSign text.toList
    ofWord? negative rest

end Seconds

end RoughCut
