import RoughCut.Json.Shape
import RoughCut.Work

/-!
How transcripts, commands, cuts and jobs are written in JSON: the names of
their fields, the order in which these are written, and which of them may be
left out. A transcript has a second form, the one in which the transcriber
whisper writes it: words in segments.
-/

namespace RoughCut

open Json

namespace Json.Shape

/-- Whole numbers of thirty-two bits. -/
def word32 : Shape UInt32 :=
  .view UInt32.ofNat UInt32.toNat (.whole "u32" (Nat.pow 2 32 - 1)) fun _ => UInt32.ofNat_toNat

/-- Whole numbers of sixty-four bits. -/
def count : Shape Nat :=
  .whole "usize" (Nat.pow 2 64 - 1)

def string : Shape String :=
  .text "a string"

def tags : Shape Tags :=
  .view Tags.ofList Tags.toList (.list string) Tags.ofList_toList

end Json.Shape

def Token.shape : Shape Token :=
  .view (fun (text, start, ()) => ⟨text, start⟩) (fun t => (t.text, t.start, ()))
    (.record "Token"
      (.field "text" .required .string
      (.field "start_time" .required .seconds .done)))
    fun _ => rfl

def Transcript.shape : Shape Transcript :=
  .view (fun (tokens, duration, ()) => ⟨tokens, duration⟩) (fun t => (t.tokens, t.duration, ()))
    (.record "Transcript"
      (.field "tokens" .required (.list Token.shape)
      (.field "total_duration" (.anywhere Seconds.zero) .seconds .done)))
    fun _ => rfl

/-! The form of the transcriber. -/

namespace Whisper

def word : Shape Token :=
  .view (fun (text, start, ()) => ⟨text, start⟩) (fun t => (t.text, t.start, ()))
    (.record "WhisperWord"
      (.field "word" .required .string
      (.field "start" .required .seconds .done)))
    fun _ => rfl

/-- A stretch of speech with its words, or without. -/
def segment : Shape (List Token) :=
  .view (fun (words, ()) => words) (fun words => (words, ()))
    (.record "WhisperSegment" (.field "words" (.anywhere []) (.list word) .done))
    fun _ => rfl

/-- A transcript with its words in segments, written as one segment. -/
def transcript : Shape Transcript :=
  .view (fun (duration, segments, ()) => ⟨segments.flatten, duration⟩)
    (fun t => (t.duration, [t.tokens], ()))
    (.record "WhisperTranscript"
      (.field "duration" (.anywhere Seconds.zero) .seconds
      (.field "segments" .required (.list segment) .done)))
    fun t => by cases t; simp

end Whisper

namespace IssueKind

def all : List IssueKind :=
  [malformedMarker, unrecognizedCommand, orphanRetroactive, deprecatedCommand]

def name : IssueKind → String
  | malformedMarker => "malformed_marker"
  | unrecognizedCommand => "unrecognized_command"
  | orphanRetroactive => "orphan_retroactive"
  | deprecatedCommand => "deprecated_command"

def shape : Shape IssueKind :=
  .choice (all.map fun k => (k.name, k)) name fun k => by cases k <;> decide

end IssueKind

namespace CommandKind

def all : List CommandKind := [start, standalone, retroactive, deprecatedEnding]

def name : CommandKind → String
  | start => "start"
  | standalone => "standalone"
  | retroactive => "retroactive"
  | deprecatedEnding => "deprecated_ending"

def shape : Shape CommandKind :=
  .choice (all.map fun k => (k.name, k)) name fun k => by cases k <;> decide

end CommandKind

def Category.shape : Shape Category :=
  .choice (all.map fun c => (c.word, c)) word fun c => by cases c <;> decide

def Command.shape : Shape Command :=
  .view
    (fun (kind, start, stop, category, number, label, ()) =>
      ⟨kind, start, stop, category, number, label⟩)
    (fun c => (c.kind, c.start, c.stop, c.category, c.number, c.label, ()))
    (.record "MarkerCommand"
      (.field "kind" .required CommandKind.shape
      (.field "start_time" .required .seconds
      (.field "end_time" .required .seconds
      (.field "category" .required Category.shape
      (.field "number" (.inObject none) (.nullable .word32)
      (.field "label" .required .string .done)))))))
    fun _ => rfl

def Issue.shape : Shape Issue :=
  .view (fun (kind, start, detail, ()) => ⟨kind, start, detail⟩)
    (fun i => (i.kind, i.start, i.detail, ()))
    (.record "Issue"
      (.field "kind" .required IssueKind.shape
      (.field "start_time" .required .seconds
      (.field "detail" .required .string .done))))
    fun _ => rfl

def Report.shape : Shape Report :=
  .view (fun (errors, warnings, ()) => ⟨errors, warnings⟩) (fun r => (r.errors, r.warnings, ()))
    (.record "Report"
      (.field "errors" .required (.list Issue.shape)
      (.field "warnings" .required (.list Issue.shape) .done)))
    fun _ => rfl

def Segment.shape : Shape Segment :=
  .view
    (fun (index, start, stop, scene, step, label, tags, ()) =>
      ⟨index, start, stop, scene, step, label, tags⟩)
    (fun s => (s.index, s.start, s.stop, s.scene, s.step, s.label, s.tags, ()))
    (.record "Segment"
      (.field "index" .required .count
      (.field "start_time" .required .seconds
      (.field "end_time" .required .seconds
      (.field "scene_number" (.inObject none) (.nullable .word32)
      (.field "step_number" (.inObject none) (.nullable .word32)
      (.field "label" .required .string
      (.field "tags" .required .tags .done))))))))
    fun _ => rfl

def Cut.shape : Shape Cut :=
  .view (fun (segments, report, ()) => ⟨segments, report⟩) (fun c => (c.segments, c.report, ()))
    (.record "SegmentationResult"
      (.field "segments" .required (.list Segment.shape)
      (.field "report" .required Report.shape .done)))
    fun _ => rfl

def Job.shape : Shape Job :=
  .view (fun (transcript, footage, output, ()) => ⟨transcript, footage, output⟩)
    (fun j => (j.transcript, j.footage, j.output, ()))
    (.record "SegmentJob"
      (.field "transcript_key" .required .string
      (.field "media_path" (.anywhere none) (.nullable (.text "path string"))
      (.field "output_key" .required .string .done))))
    fun _ => rfl

/-- Reads a transcript in either of its forms. One with a member for its tokens
is in the form of the library, and every other text in that of the transcriber. -/
def Transcript.ofJson (text : String) : Except Fault Transcript := do
  let v ← Value.parse text
  mismatched ((if v.hasMember "tokens" then shape else Whisper.transcript).ofValue v)

/-- The cut without a blank. -/
def Cut.compactJson (c : Cut) : String :=
  (shape.toValue c).compactText

/-- The cut laid out over lines, as it is stored. -/
def Cut.prettyJson (c : Cut) : String :=
  (shape.toValue c).prettyText

end RoughCut
