import RoughCut.Sidecar

/-!
The command line of the sidecar tool, on the files of the system. No other
program is run from here, so footage is answered for as on a system without the
tool that measures it.
-/

namespace RoughCut.Main

/-- The cause of a failed request to the system. -/
def cause : IO.Error → FileError
  | .noFileOrDirectory .. => .notFound
  | .alreadyExists .. => .exists
  | .inappropriateType _ code _ => if code = 21 then .isDirectory else .notDirectory
  | e => .other e.toString

/-- What a request to the system comes to. -/
def attempt (action : IO α) : IO (Except FileError α) := do
  match ← action.toBaseIO with
  | .ok a => return .ok a
  | .error e => return .error (cause e)

/-- The text of a file. -/
def readText (path : String) : IO (Except FileError String) := do
  let content ← attempt (IO.FS.readBinFile path)
  return content.bind fun bytes => FileTree.textOf bytes.toList

/-- Whether a file can be read. -/
def isFile (path : String) : IO Bool := do
  let result ← attempt do
    let handle ← IO.FS.Handle.mk path .read
    discard (handle.read 1)
  return result.isOk

def load (key : String) : IO (Except StorageError Transcript) := do
  match Storage.checkKey key with
  | .error e => return .error e
  | .ok () => return Storage.decode key (← readText key)

def prepare (key : String) : IO (Except StorageError Unit) :=
  match Storage.directoryFor key with
  | none => return .ok ()
  | some directory => return Storage.onPath directory (← attempt (IO.FS.createDirAll directory))

def store (key : String) (cut : Cut) : IO (Except StorageError Unit) := do
  match Storage.checkKey key with
  | .error e => return .error e
  | .ok () =>
    match ← prepare key with
    | .error e => return .error e
    | .ok () => return Storage.onPath key (← attempt (IO.FS.writeFile key cut.prettyJson))

/-- The host of the system's files. -/
def host : Host IO StorageError where
  load := load
  probe _ := return some (.notRun FileError.notFound.message)
  store := store

/-- The variables that are set, of those with a meaning. -/
def environment : IO Variables :=
  Settings.variableNames.filterMapM fun name => do
    return (← IO.getEnv name).map fun value => (name, value)

/-- The nearest file of variables, from the working directory up. -/
def variableFile? : IO (Option (List UInt8)) := do
  let directory := toString (← IO.currentDir)
  (Path.ancestors directory ++ ["/"]).findSomeM? fun directory => do
    let content ← attempt (IO.FS.readBinFile (Path.join directory Variables.fileName))
    return content.toOption.map ByteArray.toList

def settings : IO Settings := do
  let vars ← environment
  return Settings.ofVariables (((← variableFile?).map vars.addFile).getD vars).value?

end RoughCut.Main

def main (arguments : List String) : IO UInt32 := do
  let outcome ← RoughCut.Sidecar.run RoughCut.Main.host RoughCut.Main.isFile
    (← RoughCut.Main.settings) arguments
  outcome.output.forM IO.println
  outcome.errors.forM IO.eprintln
  return UInt32.ofNat outcome.status
