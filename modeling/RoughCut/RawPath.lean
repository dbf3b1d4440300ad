import RoughCut.Path
import RoughCut.Text.Utf8

/-!
Paths as a file system has them. They are bytes, of which only those of the slash and the
dot mean anything, and they need not encode a text. Such a path is parted as a path of
text is, with a character for each of its bytes.
-/

namespace RoughCut

/-- A path, or a name in one, of any bytes. -/
abbrev RawPath := List UInt8

namespace RawPath

/-- The path with a character for each byte. -/
def letters (p : RawPath) : String :=
  String.ofList (p.map fun b => Char.ofNat b.toNat)

/-- The path that such characters stand for. -/
def ofLetters (s : String) : RawPath :=
  s.toList.map fun c => UInt8.ofNat c.toNat

/-- The last name of a path, unless it ends in two dots or has no name at all. -/
def name? (p : RawPath) : Option RawPath :=
  (Path.name? (letters p)).map ofLetters

/-- The path without its last piece, unless it is the root or empty. -/
def parent? (p : RawPath) : Option RawPath :=
  (Path.parent? (letters p)).map ofLetters

/-- The last name of a path without its extension. -/
def stem? (p : RawPath) : Option RawPath :=
  (Path.stem? (letters p)).map ofLetters

/-- The path of a name in a directory. -/
def join (directory name : RawPath) : RawPath :=
  ofLetters (Path.join (letters directory) (letters name))

/-- The path with its last name replaced, or with a name added where it has none. -/
def withName (p name : RawPath) : RawPath :=
  ofLetters (Path.withName (letters p) (letters name))

/-- The path of the sidecar of a transcript. The name of a sidecar is a text. What is not
text in the stem of the transcript is U+FFFD there. -/
def sidecarPath (transcript : RawPath) (directory : Option RawPath) : RawPath :=
  let stem := ((stem? transcript).map Text.Utf8.decodeLossy).getD "transcript"
  let name := Text.Utf8.encode (stem ++ ".segments.json")
  match directory with
  | some directory => join directory name
  | none => withName transcript name

end RawPath

end RoughCut
