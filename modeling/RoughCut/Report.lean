import RoughCut.Seconds.Format

/-!
What went wrong while a transcript was cut. An error costs a window, a warning
costs nothing but the effect that was asked for.
-/

namespace RoughCut

/-- What can go wrong. The first two are errors, the others warnings. -/
inductive IssueKind where
  /-- a slate without its done -/
  | malformedMarker
  /-- a window outside the grammar of commands -/
  | unrecognizedCommand
  /-- a tag for the last segment where there is none yet -/
  | orphanRetroactive
  /-- a command that has lost its meaning -/
  | deprecatedCommand
  deriving DecidableEq

namespace IssueKind

def words : IssueKind → String
  | malformedMarker => "malformed marker"
  | unrecognizedCommand => "unrecognized command"
  | orphanRetroactive => "orphan retroactive command"
  | deprecatedCommand => "deprecated command"

end IssueKind

/-- A problem with the window that a slate opened, and the time of that slate. -/
structure Issue where
  kind : IssueKind
  start : Seconds
  detail : String
  deriving DecidableEq

/-- A time in a message. -/
def Seconds.message (x : Seconds) : String :=
  x.shortText ++ "s"

def Issue.message (i : Issue) : String :=
  i.kind.words ++ " at " ++ i.start.message ++ ": " ++ i.detail

/-- The errors and the warnings, each in the order in which they were found. -/
structure Report where
  errors : List Issue
  warnings : List Issue
  deriving DecidableEq

namespace Report

def empty : Report := ⟨[], []⟩

def addErrors (r : Report) (issues : List Issue) : Report :=
  { r with errors := r.errors ++ issues }

def addWarnings (r : Report) (issues : List Issue) : Report :=
  { r with warnings := r.warnings ++ issues }

def isClean (r : Report) : Bool :=
  r.errors.isEmpty && r.warnings.isEmpty

end Report

end RoughCut
