import RoughCut.Timeline
import RoughCut.Transcript

/-!
The rough cut of a transcript: its tokens in normal form are scanned into
windows, the windows are classified into commands, and the commands are built
into segments. Every stage reports its problems and goes on.
-/

namespace RoughCut

/-- The segments of a transcript and everything that went wrong finding them. -/
structure Cut where
  segments : List Segment
  report : Report
  deriving DecidableEq

namespace Window

/-- The command of a window that is one. -/
def command? (w : Window) : Option Command :=
  w.classify.toOption

/-- The issue for a window that is no command. -/
def issue? (w : Window) : Option Issue :=
  match w.classify with
  | .ok _ => none
  | .error u => some ⟨.unrecognizedCommand, w.start, u.message⟩

end Window

namespace Cut

/-- The cut of tokens, normalized or not, for footage with this end. -/
def ofTokens (tokens : List Token) (footage : Seconds) : Cut :=
  let (windows, report) := scan (Token.normalized tokens) Report.empty
  let report := report.addErrors (windows.filterMap Window.issue?)
  let (segments, report) := buildSegments (windows.filterMap Window.command?) footage report
  ⟨segments, report⟩

end Cut

/-- The cut of a whole transcript. -/
def Transcript.cut (t : Transcript) : Cut :=
  Cut.ofTokens t.words t.endOfFootage

end RoughCut
