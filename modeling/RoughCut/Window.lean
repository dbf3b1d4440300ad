import RoughCut.Report
import RoughCut.Token
import RoughCut.Text.Basic

/-!
Windows, the words spoken between a `slate` and its `done`. A slate inside an
open window abandons it and opens another, and so does the end of the
transcript, with nothing opened; a `done` outside of a window is ordinary
speech.
-/

namespace RoughCut

/-- The words between the cues, and the times of the `slate` and the `done`. -/
structure Window where
  payload : List String
  start : Seconds
  stop : Seconds
  deriving DecidableEq

namespace Token

/-- Whether the word opens a window. -/
def isSlate (t : Token) : Bool :=
  Text.sameLetters t.text "slate"

/-- Whether the word closes a window. -/
def isDone (t : Token) : Bool :=
  Text.sameLetters t.text "done"

/-- Whether the word opens or closes a window. -/
def isCue (t : Token) : Bool :=
  t.isSlate || t.isDone

end Token

/-- A window of which the `done` has not been seen, its words latest first. -/
structure OpenWindow where
  start : Seconds
  payload : List String

/-- A pass over tokens: the window that is open, and what has been found so
far, latest first. -/
structure Scan where
  opened : Option OpenWindow
  windows : List Window
  issues : List Issue

namespace Scan

def initial : Scan := ⟨none, [], []⟩

/-- The issue for a window that another slate interrupts. -/
def interrupted (w : OpenWindow) (slate : Seconds) : Issue :=
  ⟨.malformedMarker, w.start,
    "slate interrupted by another slate at " ++ slate.message ++ " before done"⟩

/-- The issue for a window that is open at the end. -/
def unfinished (w : OpenWindow) : Issue :=
  ⟨.malformedMarker, w.start, "slate has no matching done before the end of the transcript"⟩

/-- What one more token leads to. Words outside of a window are passed over. -/
def step (s : Scan) (t : Token) : Scan :=
  if t.isSlate then
    { s with
      opened := some ⟨t.start, []⟩
      issues := (s.opened.map fun w => interrupted w t.start).toList ++ s.issues }
  else if t.isDone then
    { s with
      opened := none
      windows := (s.opened.map fun w => ⟨w.payload.reverse, w.start, t.start⟩).toList ++ s.windows }
  else
    { s with opened := s.opened.map fun w => { w with payload := t.text :: w.payload } }

/-- The issues of the whole pass, earliest first. -/
def allIssues (s : Scan) : List Issue :=
  ((s.opened.map unfinished).toList ++ s.issues).reverse

end Scan

/-- The windows of the tokens in order, and the report with an error added for
each slate that is not closed. -/
def scan (tokens : List Token) (report : Report) : List Window × Report :=
  let s := tokens.foldl Scan.step Scan.initial
  (s.windows.reverse, report.addErrors s.allIssues)

end RoughCut
