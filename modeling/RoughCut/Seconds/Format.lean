import RoughCut.Seconds.Shortest

/-!
How times are written. `exactText` gives the shortest digits that read back,
in plain or in scientific form; `shortText` gives two places for messages.
-/

namespace RoughCut

/-- How far numbers are written plainly: with a leading digit that stands for
a power of ten between `10 ^ least` and `10 ^ most`. -/
structure PlainRange where
  least : Int
  most : Int

/-- Five zeros may follow the point, and sixteen digits may precede it. -/
def plainRange : PlainRange := ⟨-5, 15⟩

namespace Decimal

/-- All digits with a point among them, at least one on each side. -/
def plainText (digits : List Char) (exponent : Int) : List Char :=
  if 0 ≤ exponent then digits ++ List.replicate exponent.toNat '0' ++ ['.', '0']
  else
    let places := (-exponent).toNat
    let padded := List.replicate (places + 1 - digits.length) '0' ++ digits
    padded.take (padded.length - places) ++ '.' :: padded.drop (padded.length - places)

/-- One digit, a point with the others if there are any, and the power of ten
of the first digit with its sign. -/
def scientificText (digits : List Char) (power : Int) : List Char :=
  let fraction := if digits.length ≤ 1 then [] else '.' :: digits.drop 1
  digits.take 1 ++ fraction ++ 'e' :: (if power < 0 then '-' else '+') ::
    Nat.toDigits 10 power.natAbs

/-- The text of a decimal without its sign. Zero is `0.0`. -/
def unsignedText (d : Decimal) : List Char :=
  let digits := Nat.toDigits 10 d.digits
  let power := d.exponent + digits.length - 1
  if plainRange.least ≤ power ∧ power ≤ plainRange.most then plainText digits d.exponent
  else scientificText digits power

def text (d : Decimal) : String :=
  String.ofList (if d.negative then '-' :: d.unsignedText else d.unsignedText)

end Decimal

namespace Seconds

/-- The shortest text that reads back as the finite time. -/
def exactText (x : Seconds) : String :=
  x.shortest.text

/-- The texts of the times that have no digits. -/
def wordText (x : Seconds) : String :=
  if x.isNaN then "NaN" else if x.isNegative then "-inf" else "inf"

/-- The number of hundredths nearest to a finite magnitude, a half going to
the even one. -/
def hundredths (m : Nat) : Nat :=
  roundDiv (100 * ticks m) (Nat.pow 2 1074)

/-- The time with two places after the point. A negative time keeps its sign
even where nothing but zeros is left of it. -/
def shortText (x : Seconds) : String :=
  if x.isFinite then
    let n := hundredths x.magnitude
    let places := String.ofList [Nat.digitChar (n % 100 / 10), Nat.digitChar (n % 10)]
    (if x.isNegative then "-" else "") ++ toString (n / 100) ++ "." ++ places
  else x.wordText

end Seconds

end RoughCut
