import RoughCut.Json.Value

/-!
JSON values as text, either without a blank or laid out over lines with two
blanks for each level. Members keep their order.
-/

namespace RoughCut.Json

namespace Number

/-- A whole number without a point; a time with the digits that read back. A
time that is no number is `null`. -/
def chars : Number → List Char
  | integer n => (toString n).toList
  | decimal x => if x.isFinite then x.exactText.toList else "null".toList

end Number

namespace Value

mutual

/-- The value without a blank. -/
def compact : Value → List Char
  | null => "null".toList
  | boolean b => (if b then "true" else "false").toList
  | number n => n.chars
  | text s => Literal.chars s
  | array [] => ['[', ']']
  | array (v :: vs) => '[' :: compact v ++ compactItems vs
  | object [] => ['\x7b', '\x7d']
  | object ((k, v) :: ms) => '\x7b' :: Literal.chars k ++ ':' :: compact v ++ compactMembers ms

/-- The items after the first with the closing bracket. -/
def compactItems : List Value → List Char
  | [] => [']']
  | v :: vs => ',' :: compact v ++ compactItems vs

/-- The members after the first with the closing brace. -/
def compactMembers : List (String × Value) → List Char
  | [] => ['\x7d']
  | (k, v) :: ms => ',' :: Literal.chars k ++ ':' :: compact v ++ compactMembers ms

end

/-- A new line at the given level. -/
def newLine (level : Nat) : List Char :=
  '\n' :: List.replicate (2 * level) ' '

mutual

/-- The value laid out over lines, of which the first stands at the given level. -/
def pretty (level : Nat) : Value → List Char
  | null => "null".toList
  | boolean b => (if b then "true" else "false").toList
  | number n => n.chars
  | text s => Literal.chars s
  | array [] => ['[', ']']
  | array (v :: vs) =>
    '[' :: newLine (level + 1) ++ pretty (level + 1) v ++ prettyItems level vs
  | object [] => ['\x7b', '\x7d']
  | object ((k, v) :: ms) =>
    '\x7b' :: newLine (level + 1) ++ Literal.chars k ++ ':' :: ' ' :: pretty (level + 1) v ++
      prettyMembers level ms

def prettyItems (level : Nat) : List Value → List Char
  | [] => newLine level ++ [']']
  | v :: vs => ',' :: newLine (level + 1) ++ pretty (level + 1) v ++ prettyItems level vs

def prettyMembers (level : Nat) : List (String × Value) → List Char
  | [] => newLine level ++ ['\x7d']
  | (k, v) :: ms =>
    ',' :: newLine (level + 1) ++ Literal.chars k ++ ':' :: ' ' :: pretty (level + 1) v ++
      prettyMembers level ms

end

def compactText (v : Value) : String :=
  String.ofList v.compact

def prettyText (v : Value) : String :=
  String.ofList (v.pretty 0)

end Value

end RoughCut.Json
