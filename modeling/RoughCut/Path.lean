import RoughCut.Text.Basic

/-!
File paths as texts. A path is cut at its slashes into pieces. Empty pieces
and single dots lead nowhere and are passed over at its end, all but a dot at
its very start; two dots lead up and are no name.
-/

namespace RoughCut.Path

/-- The characters between two slashes. -/
abbrev Piece := List Char

/-- The pieces between the slashes of a path, empty ones among them. -/
def pieces (p : String) : List Piece :=
  p.toList.splitOn '/'

/-- The path of some pieces. -/
def ofPieces (ps : List Piece) : String :=
  String.ofList (List.intercalate ['/'] ps)

/-- Whether a path starts at the root. -/
def isAbsolute (p : String) : Bool :=
  p.toList.head? == some '/'

/-- Whether a piece leads nowhere. -/
def isIdle (piece : Piece) : Bool :=
  piece == [] || piece == ['.']

/-- Drops the pieces at the end that lead nowhere. The first piece stays. -/
def trimIdle : List Piece → List Piece
  | [] => []
  | first :: rest => first :: (rest.reverse.dropWhile isIdle).reverse

/-- Whether a piece names a file or a directory. -/
def isName (piece : Piece) : Bool :=
  !isIdle piece && piece != ['.', '.']

/-- The pieces before the last name of a path, and that name, if the path ends
in one. -/
def splitName (p : String) : Option (List Piece × Piece) :=
  let ps := trimIdle (pieces p)
  (ps.getLast?.filter isName).map fun name => (ps.dropLast, name)

/-- The last name of a path, unless it ends in two dots or has no name at all. -/
def name? (p : String) : Option String :=
  (splitName p).map fun (_, name) => String.ofList name

/-- The path without its last piece. A relative path of one piece lies in the
empty path, and the root and the empty path lie nowhere. -/
def parent? (p : String) : Option String :=
  match trimIdle (pieces p) with
  | [] => none
  | [only] => if only = [] then none else some ""
  | ps =>
    match trimIdle ps.dropLast with
    | [[]] => some "/"
    | ps => some (ofPieces ps)

/-- The parts of a name before and after its last dot. A dot at the start of a
name parts nothing. -/
def splitDot (name : Piece) : Option (Piece × Piece) :=
  Text.partLast? '.' name

/-- The name without its extension. -/
def nameStem (name : Piece) : Piece :=
  ((splitDot name).map Prod.fst).getD name

/-- The last name of a path without its extension. -/
def stem? (p : String) : Option String :=
  (splitName p).map fun (_, name) => String.ofList (nameStem name)

/-- The extension of the last name of a path, without the dot. -/
def extension? (p : String) : Option Piece :=
  (splitName p).bind fun (_, name) => (splitDot name).map Prod.snd

/-- The path of a name in a directory. -/
def join (directory name : String) : String :=
  if directory.isEmpty then name
  else if directory.toList.getLast? = some '/' then directory ++ name
  else directory ++ "/" ++ name

/-- The path with its last name replaced, or with a name added where it has none. -/
def withName (p name : String) : String :=
  match name? p, parent? p with
  | some _, some parent => join parent name
  | _, _ => join p name

/-- Puts a dot and an extension after the stem of the last name, in place of
all that follows it. -/
def setExtension (p : String) (extension : Piece) : String :=
  match splitName p with
  | none => p
  | some (front, name) => ofPieces (front ++ [nameStem name ++ '.' :: extension])

/-- The path with another extension. As many characters as the extension has
are taken off the end before the new one is set. -/
def withExtension (p extension : String) : String :=
  let length := ((extension? p).map List.length).getD 0
  setExtension (String.ofList (p.toList.take (p.length - length))) extension.toList

/-- The path, its parent, the parent of that and so on, up to the empty path or
the root, which are not among them; at most so many. -/
def ancestorsWithin : Nat → String → List String
  | 0, _ => []
  | n + 1, p =>
    match parent? p with
    | none => []
    | some parent => p :: ancestorsWithin n parent

/-- The path and all above it, from the inside out. -/
def ancestors (p : String) : List String :=
  ancestorsWithin (pieces p).length p

end RoughCut.Path
