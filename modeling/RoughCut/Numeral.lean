import RoughCut.Text.Basic

/-!
Spoken numbers: digits, or an English cardinal from one to ninety-nine.
-/

namespace RoughCut.Numeral

/-- The cardinals from one to nineteen. -/
def units : List String :=
  ["one", "two", "three", "four", "five", "six", "seven", "eight", "nine", "ten", "eleven",
    "twelve", "thirteen", "fourteen", "fifteen", "sixteen", "seventeen", "eighteen", "nineteen"]

/-- The cardinals of the tens from twenty on. -/
def tens : List String :=
  ["twenty", "thirty", "forty", "fifty", "sixty", "seventy", "eighty", "ninety"]

def unit? (word : String) : Option Nat :=
  (units.idxOf? word).map (· + 1)

def ten? (word : String) : Option Nat :=
  (tens.idxOf? word).map fun i => 10 * (i + 2)

/-- A number that has a place in thirty-two bits and is not zero. -/
def ofNat? (n : Nat) : Option UInt32 :=
  if 0 < n ∧ n < Nat.pow 2 32 then some (UInt32.ofNat n) else none

/-- The value of a word of digits, leading zeros allowed. -/
def ofDigits? (digits : List Char) : Option UInt32 :=
  ofNat? (Nat.ofDigitChars 10 digits 0)

/-- A cardinal of one word, or of two around a hyphen: one of the tens and one
of the units up to nine. -/
def ofCardinal? (word : String) : Option Nat :=
  match (unit? word).or (ten? word) with
  | some n => some n
  | none =>
    match word.toList.dropWhile (· ≠ '-') with
    | [] => none
    | _ :: rest => do
      let unit ← (unit? (String.ofList rest)).filter (· < 10)
      let ten ← ten? (String.ofList (word.toList.takeWhile (· ≠ '-')))
      return ten + unit

/-- The number that a word stands for, whatever the case of its letters. -/
def ofWord? (word : String) : Option UInt32 :=
  let word := Text.lower word
  if word.toList.all Char.isDigit then ofDigits? word.toList
  else (ofCardinal? word).bind ofNat?

end RoughCut.Numeral
