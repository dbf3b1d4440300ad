import RoughCut.Seconds.Format
import RoughCut.Text.Quoted

/-!
Why a text is not read: it ends too early, it is not JSON, or it is JSON of
another shape than asked for. Only the last has a wording.
-/

namespace RoughCut.Json

/-- What stands where something else was expected. -/
inductive Found where
  | null
  | boolean (b : Bool)
  | integer (n : Int)
  | decimal (x : Seconds)
  | text (s : String)
  | sequence
  | map

/-- How a value differs from the shape it should have. -/
inductive Mismatch where
  /-- a value of another type -/
  | wrongType (found : Found) (expected : String)
  /-- an integer that the type has no room for -/
  | outOfRange (n : Int) (expected : String)
  /-- a field that has to be there -/
  | missing (field : String)
  /-- a field that is there twice -/
  | repeated (field : String)
  /-- a name that is none of those to choose from -/
  | unknownChoice (name : String) (choices : List String)
  /-- a record written as an array that ends before this item -/
  | tooShort (found : Nat) (record : String) (expected : Nat)
  /-- a record written as an array of this length, with items left over -/
  | tooLong (length : Nat)

/-- Where a reader stopped: at the end of the text, at a byte that no text has
there, or at a value of another shape. -/
inductive Fault where
  | ended
  | malformed
  | mismatch (m : Mismatch)

/-- A text between grave accents, the way names are set off in messages. -/
def named (s : String) : String :=
  "`" ++ s ++ "`"

namespace Found

def message : Found → String
  | null => "null"
  | boolean b => "boolean " ++ named (if b then "true" else "false")
  | integer n => "integer " ++ named (toString n)
  | decimal x => "floating point " ++ named x.exactText
  | text s => "string " ++ Text.quoted s
  | sequence => "sequence"
  | map => "map"

end Found

namespace Mismatch

def message : Mismatch → String
  | wrongType found expected => "invalid type: " ++ found.message ++ ", expected " ++ expected
  | outOfRange n expected =>
    "invalid value: integer " ++ named (toString n) ++ ", expected " ++ expected
  | missing field => "missing field " ++ named field
  | repeated field => "duplicate field " ++ named field
  | unknownChoice name choices =>
    "unknown variant " ++ named name ++ ", expected one of " ++
      String.intercalate ", " (choices.map named)
  | tooShort found record expected =>
    "invalid length " ++ toString found ++ ", expected struct " ++ record ++ " with " ++
      toString expected ++ " elements"
  | tooLong length =>
    "invalid length " ++ toString length ++ ", expected fewer elements in array"

end Mismatch

end RoughCut.Json
