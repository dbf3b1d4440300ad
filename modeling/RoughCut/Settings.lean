/-!
Settings from named variables. A variable that is not set, and one that has no
meaning, leaves its setting at the default.
-/

namespace RoughCut

/-- What can be set, with the defaults. -/
structure Settings where
  /-- the address to serve at -/
  address : String := "127.0.0.1"
  /-- the number to listen at there, as a text -/
  portNumber : String := "3000"
  /-- the directory for cuts; each is beside its transcript when there is none -/
  directory : Option String := none
  /-- the most tokens of a transcript that is sent in -/
  maxTokens : Nat := 500000
  /-- the most transcripts to work on at once -/
  maxConcurrent : Nat := 4
  /-- whether errors in a cut make a run fail -/
  strict : Bool := false
  deriving DecidableEq

namespace Settings

/-- The largest number of things that a setting can ask for. -/
def maxCount : Nat := Nat.pow 2 64 - 1

/-- A written number of things: decimal digits, with a plus sign before them or
without. -/
def count? (s : String) : Option Nat :=
  let digits := match s.toList with
    | '+' :: cs => cs
    | cs => cs
  if digits = [] ∨ ¬ digits.all Char.isDigit then none
  else some (Nat.ofDigitChars 10 digits 0) |>.filter (· ≤ maxCount)

def flag? (s : String) : Option Bool :=
  if s = "true" then some true
  else if s = "false" then some false
  else none

/-- The variables that have a meaning. -/
def variableNames : List String :=
  ["ADDR", "PORT", "OUTPUT_DIR", "MAX_TOKENS", "MAX_CONCURRENT", "STRICT"]

/-- The settings for given values of variables. -/
def ofVariables (value? : String → Option String) : Settings :=
  let base : Settings := {}
  { address := (value? "ADDR").getD base.address
    portNumber := (value? "PORT").getD base.portNumber
    directory := (value? "OUTPUT_DIR").filter (· ≠ "")
    maxTokens := ((value? "MAX_TOKENS").bind count?).getD base.maxTokens
    maxConcurrent := (((value? "MAX_CONCURRENT").bind count?).filter (0 < ·)).getD
      base.maxConcurrent
    strict := ((value? "STRICT").bind flag?).getD base.strict }

end Settings

end RoughCut
