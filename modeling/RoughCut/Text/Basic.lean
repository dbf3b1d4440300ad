/-!
Characters and the ends of texts: sets of characters as tables of code point ranges,
blanks and trimming, letters without regard to case, and parting a text at a character.
-/

namespace RoughCut.Text

/-- Whether the character lies in one of the ranges, the ends included. -/
def inRanges (ranges : List (Nat × Nat)) (c : Char) : Bool :=
  ranges.any fun (low, high) => decide (low ≤ c.toNat) && decide (c.toNat ≤ high)

/-- The code points with the property `White_Space`. -/
def blankRanges : List (Nat × Nat) :=
  [(0x9, 0xD), (0x20, 0x20), (0x85, 0x85), (0xA0, 0xA0), (0x1680, 0x1680), (0x2000, 0x200A),
   (0x2028, 0x2029), (0x202F, 0x202F), (0x205F, 0x205F), (0x3000, 0x3000)]

def isBlank (c : Char) : Bool :=
  inRanges blankRanges c

/-- Removes the longest runs of such characters from both ends. -/
def strip (p : Char → Bool) (s : List Char) : List Char :=
  ((s.dropWhile p).reverse.dropWhile p).reverse

/-- Removes the blanks at both ends. -/
def trim (s : String) : String :=
  String.ofList (strip isBlank s.toList)

/-- The text in small letters. Only the letters from `A` to `Z` have others; every
other character stands for itself. -/
def lower (s : String) : String :=
  String.ofList (s.toList.map Char.toLower)

/-- Whether two texts differ in the case of letters only. -/
def sameLetters (a b : String) : Bool :=
  lower a == lower b

/-- The parts of a text before and after the last `c` in it. A `c` at the very
start parts nothing. -/
def partLast? (c : Char) (s : List Char) : Option (List Char × List Char) :=
  let after := (s.reverse.takeWhile (· ≠ c)).reverse
  let before := (s.take (s.length - after.length)).dropLast
  if before = [] then none else some (before, after)

end RoughCut.Text
