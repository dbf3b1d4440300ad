import RoughCut.Path
import RoughCut.Text.Utf8

/-!
A tree of files and directories with a working directory, and the operations
of a file system on it. A place in the tree is the list of the names that lead
to it from the root. Operations take paths and fail with the causes of the
system. One that fails leaves the tree as it was, except that directories made
on the way to another one stay.
-/

namespace RoughCut

/-- Why the file system refuses. -/
inductive FileError where
  | notFound
  | exists
  | notDirectory
  | isDirectory
  | nameTooLong
  | notText
  | nulInPath
  /-- another cause in the words of the system, which a tree never has -/
  | other (description : String)
  deriving DecidableEq

/-- The cause in the words of the system. -/
def FileError.message : FileError → String
  | notFound => "No such file or directory (os error 2)"
  | «exists» => "File exists (os error 17)"
  | notDirectory => "Not a directory (os error 20)"
  | isDirectory => "Is a directory (os error 21)"
  | nameTooLong => "File name too long (os error 36)"
  | notText => "stream did not contain valid UTF-8"
  | nulInPath => "file name contained an unexpected NUL byte"
  | other description => description

/-- What can stand at a place. -/
inductive Entry where
  | directory
  | file (content : List UInt8)
  deriving DecidableEq

/-- The names from the root down. -/
abbrev Place := List String

/-- What stands at each place but the root, which is a directory. -/
structure FileTree where
  entries : List (Place × Entry)
  working : Place

namespace FileTree

/-- What stands at a place. The root is always there. -/
def at? (t : FileTree) (place : Place) : Option Entry :=
  if place.isEmpty then some .directory else t.entries.lookup place

/-- Puts an entry at a place, instead of the one that is there. -/
def set (t : FileTree) (place : Place) (e : Entry) : FileTree :=
  { t with entries := (place, e) :: t.entries.filter fun (p, _) => p != place }

/-- The most bytes that a name in a directory may have. -/
def maxNameBytes : Nat := 255

/-- The most bytes that a path may have. -/
def maxPathBytes : Nat := 4095

/-- What stands under a name in a directory. -/
def child (t : FileTree) (directory : Place) (name : String) : Except FileError (Option Entry) :=
  if maxNameBytes < name.utf8ByteSize then .error .nameTooLong
  else .ok (t.at? (directory ++ [name]))

/-- Follows names from a directory. All but the last have to be directories. -/
def walk (t : FileTree) : Place → List String → Except FileError Place
  | place, [] => .ok place
  | place, name :: names =>
    if name = "" ∨ name = "." then t.walk place names
    else if name = ".." then t.walk place.dropLast names
    else
      match t.child place name with
      | .error e => .error e
      | .ok none => .error .notFound
      | .ok (some .directory) => t.walk (place ++ [name]) names
      | .ok (some (.file _)) => if names = [] then .ok (place ++ [name]) else .error .notDirectory

/-- The names to follow along a path, empty ones and dots among them. -/
def pathNames (path : String) : List String :=
  (Path.pieces path).map String.ofList

/-- Where the walk along a path begins. -/
def origin (t : FileTree) (path : String) : Place :=
  if Path.isAbsolute path then [] else t.working

/-- Refuses a text that no path can be, wherever it would lead. -/
def checkPath (path : String) : Except FileError Unit :=
  if path.toList.contains '\x00' then .error .nulInPath
  else if path.isEmpty then .error .notFound
  else if maxPathBytes < path.utf8ByteSize then .error .nameTooLong
  else .ok ()

/-- The place of a path at which something stands. -/
def resolve (t : FileTree) (path : String) : Except FileError Place := do
  checkPath path
  t.walk (t.origin path) (pathNames path)

/-- What stands where a path leads. -/
def entry (t : FileTree) (path : String) : Except FileError Entry := do
  let place ← t.resolve path
  match t.at? place with
  | some e => .ok e
  | none => .error .notFound

def isFile (t : FileTree) (path : String) : Bool :=
  match t.entry path with
  | .ok (.file _) => true
  | _ => false

def isDirectory (t : FileTree) (path : String) : Bool :=
  match t.entry path with
  | .ok .directory => true
  | _ => false

/-- The text that a file holds. -/
def textOf (content : List UInt8) : Except FileError String :=
  match Text.Utf8.decode? content with
  | some text => .ok text
  | none => .error .notText

/-- The text of a file. -/
def read (t : FileTree) (path : String) : Except FileError String := do
  match ← t.entry path with
  | .directory => .error .isDirectory
  | .file content => textOf content

/-- A place and those that enclose it, from the inside out. -/
def enclosing (place : Place) : List Place :=
  (List.range (place.length + 1)).map fun n => place.take (place.length - n)

/-- The content of the file of that name in the working directory, or in the
nearest directory around it that has one. -/
def nearest? (t : FileTree) (name : String) : Option (List UInt8) :=
  (enclosing t.working).findSome? fun place =>
    match t.at? (place ++ [name]) with
    | some (.file content) => some content
    | _ => none

/-- What the last name of a path says about the place it is for. -/
inductive Target where
  /-- a directory that is there already -/
  | there
  /-- a name in a directory, perhaps with slashes after it -/
  | named (directory : Place) (name : String) (slashed : Bool)

/-- The directory and the name in it that a path leads to. Whether something
stands there is not looked at. -/
def target (t : FileTree) (path : String) : Except FileError Target := do
  checkPath path
  let names := (pathNames path).reverse
  match names.dropWhile (· = "") with
  | [] => .ok .there
  | name :: front => do
    let directory ← t.walk (t.origin path) (front.reverse ++ [""])
    if name = "." ∨ name = ".." then .ok .there
    else .ok (.named directory name (names.head? = some ""))

/-- Writes a file, a new one or over an old one. -/
def write (t : FileTree) (path : String) (content : List UInt8) : Except FileError FileTree := do
  match ← t.target path with
  | .there => .error .isDirectory
  | .named directory name slashed =>
    if slashed then .error .isDirectory
    else
      match ← t.child directory name with
      | some .directory => .error .isDirectory
      | _ => .ok (t.set (directory ++ [name]) (.file content))

/-- Makes a directory in one that is there. -/
def makeDirectory (t : FileTree) (path : String) : Except FileError FileTree := do
  match ← t.target path with
  | .there => .error .exists
  | .named directory name _ =>
    match ← t.child directory name with
    | some _ => .error .exists
    | none => .ok (t.set (directory ++ [name]) .directory)

/-- What becomes of a path where no new directory could be made: a directory
that is there is as good as one. -/
def settle (t : FileTree) (path : String) (e : FileError) : Except FileError Unit :=
  if t.isDirectory path then .ok () else .error e

/-- Makes a directory unless there is one. -/
def ensureDirectory (t : FileTree) (path : String) : Except FileError Unit × FileTree :=
  match t.makeDirectory path with
  | .ok t => (.ok (), t)
  | .error e => (t.settle path e, t)

/-- Makes the first of some paths a directory, of which each is the parent of
the one before. Where a parent is missing it is made first, and it stays when
its child cannot be made. -/
def makeChain (t : FileTree) : List String → Except FileError Unit × FileTree
  | [] => (.ok (), t)
  | path :: parents =>
    match t.makeDirectory path with
    | .ok t => (.ok (), t)
    | .error .notFound =>
      match t.makeChain parents with
      | (.error e, t) => (.error e, t)
      | (.ok (), t) => t.ensureDirectory path
    | .error e => (t.settle path e, t)

/-- Makes a directory with all its missing parents. -/
def makeDirectories (t : FileTree) (path : String) : Except FileError Unit × FileTree :=
  t.makeChain (Path.ancestors path)

end FileTree

end RoughCut
