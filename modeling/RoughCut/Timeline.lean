import RoughCut.Command
import RoughCut.Segment

/-!
From commands to segments. The commands are taken in the order of their times,
those of one time in the order given. Each start and each standalone command
opens a segment; a tag goes to the segment opened last.
-/

namespace RoughCut

/-- What the commands so far have led to: the scene and the step they are in,
and segments and warnings, latest first. The segments are not closed yet. -/
structure Timeline where
  scene : Option UInt32
  step : Option UInt32
  segments : List Segment
  warnings : List Issue

namespace Timeline

def initial : Timeline := ⟨none, none, [], []⟩

/-- The label of the segment that a standalone command opens. -/
def standaloneLabel (c : Command) : String :=
  if c.label.isEmpty then c.category.word else c.category.word ++ ": " ++ c.label

/-- Segments are counted from one. -/
def nextIndex (t : Timeline) : Nat :=
  match t.segments with
  | [] => 1
  | s :: _ => s.index + 1

/-- Opens a segment where a command starts. -/
def openSegment (t : Timeline) (start : Seconds) (label : String) : Timeline :=
  { t with
    segments := ⟨t.nextIndex, start, start, t.scene, t.step, label, .empty⟩ :: t.segments }

/-- The issue for a tag before the first segment. -/
def orphan (c : Command) : Issue :=
  ⟨.orphanRetroactive, c.start, "no segment to apply \"" ++ c.label ++ "\" to"⟩

/-- The issue for a command that has lost its meaning. -/
def deprecated (c : Command) : Issue :=
  ⟨.deprecatedCommand, c.start, "\"ending\" is no longer supported and was ignored"⟩

/-- What one more command leads to. A new scene has no step yet. -/
def apply (t : Timeline) (c : Command) : Timeline :=
  match c.kind with
  | .start =>
    if c.category = .scene then
      { t with scene := c.number, step := none }.openSegment c.start c.label
    else { t with step := c.number }.openSegment c.start c.label
  | .standalone => t.openSegment c.start (standaloneLabel c)
  | .retroactive =>
    match t.segments with
    | [] => { t with warnings := orphan c :: t.warnings }
    | s :: ss => { t with segments := { s with tags := s.tags.insert c.label } :: ss }
  | .deprecatedEnding => { t with warnings := deprecated c :: t.warnings }

end Timeline

/-- The commands in the order of their times. -/
def Command.inOrder (commands : List Command) : List Command :=
  commands.mergeSort fun a b => decide (a.start.order ≤ b.start.order)

/-- The segments that the commands make of footage with this end, and the
report with a warning added for each command that had no effect. -/
def buildSegments (commands : List Command) (footage : Seconds) (report : Report) :
    List Segment × Report :=
  let t := (Command.inOrder commands).foldl Timeline.apply Timeline.initial
  (Segment.closeAll footage t.segments.reverse, report.addWarnings t.warnings.reverse)

end RoughCut
