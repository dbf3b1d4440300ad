import RoughCut.Batch
import RoughCut.Disk
import RoughCut.Settings
import RoughCut.Variables

/-!
The tool that cuts files of transcripts and writes the sidecars. It works on
all files that it is given, says for each what came of it, and ends with a
status that tells whether one failed.
-/

namespace RoughCut.Sidecar

/-- What a run leaves behind apart from files: its status and the lines it
writes as output and as errors. -/
structure Outcome where
  status : Nat
  output : List String
  errors : List String
  deriving DecidableEq

/-- The end of a run without a file to work on. -/
def usage : Outcome where
  status := 64
  output := []
  errors := ["Usage: sidecar <transcript.json>..."]

/-- The lines about one transcript. A cut yields its errors, its warnings and a
summary as output, and a failure yields an error. -/
def lines (job : Job) : Except StorageError Cut → List String × List String
  | .ok cut =>
    let about (text : String) : String := job.transcript ++ ": " ++ text
    ((cut.report.errors ++ cut.report.warnings).map (fun issue => about issue.message) ++
      [about (toString cut.segments.length ++ " segments -> " ++ job.output)], [])
  | .error e => ([], [job.transcript ++ ": " ++ e.message])

def isFailure : Except StorageError Cut → Bool
  | .ok _ => false
  | .error _ => true

/-- Whether a cut was made that has errors. -/
def hasErrors : Except StorageError Cut → Bool
  | .ok cut => !cut.report.errors.isEmpty
  | .error _ => false

/-- A failure outweighs errors in a cut, which count in a strict run only. -/
def status (strict : Bool) (results : List (Except StorageError Cut)) : Nat :=
  if results.any isFailure then 1
  else if strict && results.any hasErrors then 2
  else 0

/-- What a run of these jobs with these results leaves behind. -/
def outcome (strict : Bool) (jobs : List Job) (results : List (Except StorageError Cut)) :
    Outcome where
  status := status strict results
  output := (List.zipWith lines jobs results).flatMap Prod.fst
  errors := (List.zipWith lines jobs results).flatMap Prod.snd

variable {m : Type → Type} [Monad m]

/-- The job for a file: its sidecar is written, with the footage beside it to measure. -/
def job (isFile : String → m Bool) (directory : Option String) (transcript : String) : m Job := do
  let footage ← (Storage.footagePaths transcript).findM? isFile
  return ⟨transcript, footage, Storage.sidecarPath transcript directory⟩

/-- Works on the files that are named. The jobs are settled before the first of
them begins. -/
def run (host : Host m StorageError) (isFile : String → m Bool) (settings : Settings)
    (transcripts : List String) : m Outcome :=
  if transcripts.isEmpty then pure usage
  else do
    let jobs ← transcripts.mapM (job isFile settings.directory)
    let results ← Batch.process host jobs settings.maxConcurrent
    return outcome settings.strict jobs results

/-- A run on a disk, with given replies of the tool that measures footage. -/
def runOn (reply : String → Probe.Reply) (settings : Settings) (transcripts : List String) :
    StateM Disk Outcome :=
  run (Disk.host reply) (fun path => return (← get).tree.isFile path) settings transcripts

/-- The settings from variables and from the file of variables near a tree's
working directory. -/
def settings (vars : Variables) (tree : FileTree) : Settings :=
  Settings.ofVariables (((tree.nearest? Variables.fileName).map vars.addFile).getD vars).value?

end RoughCut.Sidecar
