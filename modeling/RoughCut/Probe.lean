import RoughCut.Seconds.Decimal
import RoughCut.Text.Basic
import RoughCut.Text.Quoted
import RoughCut.Text.Utf8

/-!
Measuring footage. The tool ffprobe is asked for the length of a file and
answers with a decimal number of seconds on its standard output.
-/

namespace RoughCut.Probe

/-- What came of running the tool. -/
inductive Reply where
  /-- it could not be run -/
  | notRun (reason : String)
  /-- it ran to an end, a good one or not, and wrote this -/
  | ran (succeeded : Bool) (output errors : List UInt8)

/-- Why there is no length. -/
inductive Failure where
  | notRun (reason : String)
  | failed (errors : String)
  | invalidDuration (output : String)

def Failure.message : Failure → String
  | notRun reason => "ffprobe could not run: " ++ reason
  | failed errors => "ffprobe failed: " ++ errors
  | invalidDuration output => "ffprobe returned invalid duration: " ++ Text.quoted output

/-- The arguments that ask for the length of a file in seconds and for nothing else. -/
def arguments (path : String) : List String :=
  ["-v", "error", "-show_entries", "format=duration",
    "-of", "default=noprint_wrappers=1:nokey=1", path]

/-- Whether a time can be the length of footage. -/
def isLength (x : Seconds) : Bool :=
  x.isFinite && Seconds.zero.le x

/-- The length that the tool wrote, or why it is none. -/
def ofOutput (output : String) : Except Failure Seconds :=
  match (Seconds.ofText? output).filter isLength with
  | some length => .ok length
  | none => .error (.invalidDuration output)

/-- The length of the footage according to a reply. -/
def Reply.duration : Reply → Except Failure Seconds
  | notRun reason => .error (.notRun reason)
  | ran false _ errors => .error (.failed (Text.trim (Text.Utf8.decodeLossy errors)))
  | ran true output _ => ofOutput (Text.trim (Text.Utf8.decodeLossy output))

end RoughCut.Probe
