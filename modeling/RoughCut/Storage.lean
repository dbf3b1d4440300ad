import RoughCut.FileTree
import RoughCut.Record

/-!
Transcripts and cuts in a file tree, with paths as keys. The cut of a
transcript is its sidecar: a file beside it or in a directory of its own that
has the name of the transcript with another ending.
-/

namespace RoughCut

/-- Why a transcript is not loaded or a cut not stored. -/
inductive StorageError where
  | file (path : String) (cause : FileError)
  | unreadable (fault : Json.Fault)
  | invalidKey (key : String)

/-- The wording of a fault in a stored text. -/
def Json.Fault.message : Json.Fault → String
  | ended => "the text ends too early"
  | malformed => "the text is not JSON"
  | mismatch m => m.message

def StorageError.message : StorageError → String
  | file path cause => "IO error on " ++ path ++ ": " ++ cause.message
  | unreadable fault => "Serialization error: " ++ fault.message
  | invalidKey key => "Invalid key: " ++ key

namespace Storage

/-- A key has to have a character that is not blank. -/
def checkKey (key : String) : Except StorageError Unit :=
  if (Text.trim key).isEmpty then .error (.invalidKey key) else .ok ()

/-- A refusal of the file system as one of storage, with the path it is about. -/
def onPath (path : String) : Except FileError α → Except StorageError α
  | .ok a => .ok a
  | .error cause => .error (.file path cause)

/-- The transcript in what reading the file of a key came to. -/
def decode (key : String) (file : Except FileError String) : Except StorageError Transcript := do
  let text ← onPath key file
  match Transcript.ofJson text with
  | .ok transcript => .ok transcript
  | .error fault => .error (.unreadable fault)

/-- Reads the transcript of that key. -/
def load (t : FileTree) (key : String) : Except StorageError Transcript := do
  checkKey key
  decode key (t.read key)

/-- The directory to make for a key, if it lies in one that is named. -/
def directoryFor (key : String) : Option String :=
  (Path.parent? key).filter (! ·.isEmpty)

/-- Makes the directory that a key lies in. -/
def prepare (t : FileTree) (key : String) : Except StorageError Unit × FileTree :=
  match directoryFor key with
  | none => (.ok (), t)
  | some directory => (t.makeDirectories directory).map (onPath directory) id

/-- Writes a cut under a key. Directories that are made for the cut stay when
it cannot be written. -/
def store (t : FileTree) (key : String) (cut : Cut) : Except StorageError Unit × FileTree :=
  match checkKey key with
  | .error e => (.error e, t)
  | .ok () =>
    match prepare t key with
    | (.error e, t) => (.error e, t)
    | (.ok (), t) =>
      match t.write key (Text.Utf8.encode cut.prettyJson) with
      | .error cause => (.error (.file key cause), t)
      | .ok t => (.ok (), t)

/-- The path of the sidecar of a transcript. Arguments and settings of a run are texts,
so this path is one. `RawPath.sidecarPath` makes it for paths of any bytes. -/
def sidecarPath (transcript : String) (directory : Option String) : String :=
  let name := (Path.stem? transcript).getD "transcript" ++ ".segments.json"
  match directory with
  | some directory => Path.join directory name
  | none => Path.withName transcript name

/-- The extensions of footage, in the order in which they are tried. -/
def footageExtensions : List String := ["mp4", "mov", "mkv", "mxf"]

/-- Where the footage of a transcript may be: beside it, under the same name
with an extension for footage. -/
def footagePaths (transcript : String) : List String :=
  footageExtensions.map (Path.withExtension transcript)

/-- The first of the places for footage that has a file. -/
def findFootage (t : FileTree) (transcript : String) : Option String :=
  (footagePaths transcript).find? t.isFile

end Storage

end RoughCut
