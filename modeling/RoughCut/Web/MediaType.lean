import RoughCut.Text.Basic

/-!
Media types, as a request names the kind of its body: a type and a subtype with
a slash between them, and parameters after semicolons. Of the parameters only
the grammar matters here.
-/

namespace RoughCut.Web

/-- A media type without its parameters. The suffix is what follows the last
plus sign of the subtype, as in `application/problem+json`, and is no part of
the subtype then. -/
structure MediaType where
  type : String
  subtype : String
  suffix : Option String
  deriving DecidableEq

namespace MediaType

/-- The characters that names are made of. -/
def isToken (c : Char) : Bool :=
  c.isAlphanum || "!#$%&'*+-.^_`|~".toList.contains c

/-- The characters that may stand between quotes. -/
def isQuotable (c : Char) : Bool :=
  decide (31 < c.toNat) && c != '\x7f'

/-- Where in its parameters a media type is read. -/
inductive Position where
  | beforeName
  | inName
  | beforeValue
  | inValue
  /-- after an opening quote, where a quote does not close yet -/
  | opened
  | inQuotes
  | afterQuotes

namespace Position

/-- Where one more character leads, if it may stand there. -/
def next? : Position → Char → Option Position
  | beforeName, c => if c = ' ' then some beforeName else if isToken c then some inName else none
  | inName, c => if c = '=' then some beforeValue else if isToken c then some inName else none
  | beforeValue, c => if c = '"' then some opened else if isToken c then some inValue else none
  | inValue, c => if c = ';' then some beforeName else if isToken c then some inValue else none
  | opened, c => if isQuotable c then some inQuotes else none
  | inQuotes, c =>
    if c = '"' then some afterQuotes else if isQuotable c then some inQuotes else none
  | afterQuotes, c =>
    if c = ';' then some beforeName else if c = ' ' then some afterQuotes else none

/-- Whether a media type may end there. -/
def isEnd : Position → Bool
  | beforeName | beforeValue | inValue | afterQuotes => true
  | inName | opened | inQuotes => false

end Position

/-- Whether a text is a list of parameters, without the semicolon before it. -/
def isParameters (s : List Char) : Bool :=
  ((s.foldlM Position.next? .beforeName).map Position.isEnd).getD false

/-- What follows a subtype: nothing, or a semicolon and parameters. -/
def isTail : List Char → Bool
  | [] => true
  | c :: s => c == ';' && isParameters s

/-- Parts a written subtype at its last plus sign. -/
def ofNames (type subtype : List Char) : MediaType :=
  match Text.partLast? '+' subtype with
  | some (name, suffix) => ⟨String.ofList type, String.ofList name, some (String.ofList suffix)⟩
  | none => ⟨String.ofList type, String.ofList subtype, none⟩

/-- Reads a media type. A subtype before parameters is not empty. -/
def ofText? (text : String) : Option MediaType :=
  let type := text.toList.takeWhile isToken
  match text.toList.dropWhile isToken with
  | '/' :: s =>
    let subtype := s.takeWhile isToken
    let tail := s.dropWhile isToken
    if type ≠ [] ∧ (subtype ≠ [] ∨ tail = []) ∧ isTail tail then some (ofNames type subtype)
    else none
  | _ => none

/-- JSON itself, or a format that is written in JSON. -/
def isJson (t : MediaType) : Bool :=
  Text.sameLetters t.type "application" &&
    (Text.sameLetters t.subtype "json" || t.suffix.any (Text.sameLetters · "json"))

/-- The characters that a header is made of, tabs and visible ones. -/
def isHeaderChar (c : Char) : Bool :=
  c == '\t' || (decide (32 ≤ c.toNat) && decide (c.toNat < 127))

/-- Whether a header announces JSON. -/
def announcesJson (header : String) : Bool :=
  header.toList.all isHeaderChar && (ofText? header).any isJson

end MediaType

end RoughCut.Web
