import RoughCut.Text.Alphanumeric
import RoughCut.Text.Utf8

/-!
Named variables and the file that gives values to those that are not set. A
line of the file holds a name, an equals sign and a value, in which quotes,
escapes and the values of other variables may stand.
-/

namespace RoughCut

/-- Variables with their values, of which the first of a name counts. -/
abbrev Variables := List (String × String)

namespace Variables

/-- The value of a variable that is set. -/
def value? (vars : Variables) (name : String) : Option String :=
  vars.lookup name

/-- Gives a value to a variable that has none. -/
def supply (vars : Variables) (name value : String) : Variables :=
  if (vars.value? name).isSome then vars else vars ++ [(name, value)]

/-- The part of a variable that a reference asks for. A variable is its name
and its value with an equals sign between them, and the part is what follows the
reference and an equals sign. So a reference may reach into the value. -/
def remainder? (reference : List Char) : String × String → Option (List Char)
  | (name, value) => (reference ++ ['=']).isPrefixOf? (name.toList ++ '=' :: value.toList)

/-- What a reference stands for. One that no variable answers stands for nothing. -/
def expansion (vars : Variables) (reference : List Char) : List Char :=
  (vars.findSome? (remainder? reference)).getD []

/-- Where in a value a character is read. `quoted` says whether double quotes are open. -/
inductive Context where
  | plain (quoted : Bool)
  /-- between single quotes -/
  | literal
  /-- after a backslash -/
  | escaped (quoted : Bool)
  /-- after a dollar sign and a part of a name, its last character first -/
  | reference (quoted : Bool) (name : List Char)
  /-- after a dollar sign, a brace and a part of a name, its last character first -/
  | braced (quoted : Bool) (name : List Char)
  /-- after a blank, which ends the value -/
  | ended

/-- The character that a backslash and a character stand for. -/
def escape? (c : Char) : Option Char :=
  if c = 'n' then some '\n'
  else if "\\'\"$ ".toList.contains c then some c
  else none

/-- What the rest of a written value stands for, read in a context. Quotes and
braces have to be closed. The character that ends a name without braces stands
for itself whatever it is, a dollar sign apart. -/
def expand (vars : Variables) : Context → List Char → Option (List Char)
  | .plain false, [] => some []
  | .escaped false, [] => some []
  | .ended, [] => some []
  | .reference false name, [] => some (vars.expansion name.reverse)
  | _, [] => none
  | .plain quoted, c :: s =>
    if c = '$' then expand vars (.reference quoted []) s
    else if c = '\\' then expand vars (.escaped quoted) s
    else if c = '"' then expand vars (.plain !quoted) s
    else if quoted then (expand vars (.plain true) s).map (c :: ·)
    else if c = '\'' then expand vars .literal s
    else if c = ' ' ∨ c = '\t' then expand vars .ended s
    else (expand vars (.plain false) s).map (c :: ·)
  | .literal, c :: s =>
    if c = '\'' then expand vars (.plain false) s else (expand vars .literal s).map (c :: ·)
  | .escaped quoted, c :: s =>
    (escape? c).bind fun e => (expand vars (.plain quoted) s).map (e :: ·)
  | .reference quoted name, c :: s =>
    if Text.isAlphanumeric c then expand vars (.reference quoted (c :: name)) s
    else if c = '\x7b' ∧ name = [] then expand vars (.braced quoted []) s
    else if c = '$' then
      (expand vars (.reference quoted []) s).map (vars.expansion name.reverse ++ ·)
    else (expand vars (.plain quoted) s).map (vars.expansion name.reverse ++ c :: ·)
  | .braced quoted name, c :: s =>
    if c = '\x7d' then (expand vars (.plain quoted) s).map (vars.expansion name.reverse ++ ·)
    else expand vars (.braced quoted (c :: name)) s
  | .ended, c :: s =>
    if c = ' ' ∨ c = '\t' then expand vars .ended s
    else if c = '#' then some []
    else none

def isNameStart (c : Char) : Bool :=
  c.isAlpha || c == '_'

def isNameChar (c : Char) : Bool :=
  c.isAlphanum || c == '_' || c == '.'

/-- Whether nothing more is said on a line, or only a comment. -/
def isSilent : List Char → Bool
  | [] => true
  | c :: _ => c == '#'

def skipBlanks (s : List Char) : List Char :=
  s.dropWhile Text.isBlank

/-- Takes the name at the start of a line off it, with the blanks after it. -/
def splitName? (s : List Char) : Option (List Char × List Char) :=
  if s.head?.any isNameStart then
    some (s.takeWhile isNameChar, skipBlanks (s.dropWhile isNameChar))
  else none

/-- Takes the name and the equals sign off a line, with the blanks after it.
The word `export` may stand before the name. -/
def splitAssignment? (s : List Char) : Option (List Char × List Char) := do
  let (name, rest) ← splitName? s
  let (name, rest) ←
    if name = "export".toList ∧ rest.head? ≠ some '=' then splitName? rest else some (name, rest)
  match rest with
  | '=' :: value => some (name, skipBlanks value)
  | _ => none

/-- Adds the variable of a line, if it has one. Nothing comes back for a line
that is not understood. -/
def addLine? (vars : Variables) (line : String) : Option Variables :=
  let s := Text.strip Text.isBlank line.toList
  if isSilent s then some vars
  else do
    let (name, written) ← splitAssignment? s
    let value ← if isSilent written then some [] else expand vars (.plain false) written
    some (vars.supply (String.ofList name) (String.ofList value))

/-- Adds the variables of lines up to the first that is not understood or no text. -/
def addLines (vars : Variables) : List (List UInt8) → Variables
  | [] => vars
  | line :: lines =>
    match (Text.Utf8.decode? line).bind vars.addLine? with
    | some vars => addLines vars lines
    | none => vars

/-- Adds the variables of a file. -/
def addFile (vars : Variables) (content : List UInt8) : Variables :=
  vars.addLines (content.splitOn 0x0A)

/-- The name of a file of variables. -/
def fileName : String := ".env"

end Variables

end RoughCut
