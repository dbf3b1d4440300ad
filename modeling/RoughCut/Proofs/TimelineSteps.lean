import Mathlib.Data.List.Basic
import RoughCut.Timeline

/-!
What one command does to a timeline, and from it what a list of commands does.
A command opens a segment, tags the one opened last, or leaves a warning; it
never does more than one of these.
-/

namespace RoughCut

/-- Whether the command opens a segment. -/
def Command.opens (c : Command) : Bool :=
  decide (c.kind = .start ∨ c.kind = .standalone)

/-- Whether the command tags the segment before it. -/
def Command.isTag (c : Command) : Bool :=
  decide (c.kind = .retroactive)

/-- The label of the segment that a command opens. -/
def Command.title (c : Command) : String :=
  if c.kind = .start then c.label else Timeline.standaloneLabel c

/-- The segment with one more tag. -/
def Segment.addTag (tag : String) (s : Segment) : Segment :=
  { s with tags := s.tags.insert tag }

namespace Timeline

/-- The timeline in the scene and step that a command leads to. -/
def enter (t : Timeline) (c : Command) : Timeline :=
  if c.kind = .start then
    if c.category = .scene then { t with scene := c.number, step := none }
    else { t with step := c.number }
  else t

/-- The warning that a command leaves, given whether a segment is there. -/
def warning? (opened : Bool) (c : Command) : Option Issue :=
  match c.kind with
  | .start | .standalone => none
  | .retroactive => if opened then none else some (orphan c)
  | .deprecatedEnding => some (deprecated c)

variable {t : Timeline} {c : Command}

theorem warning?_of_opens (h : c.opens = true) (opened : Bool) : warning? opened c = none := by
  rcases of_decide_eq_true h with hKind | hKind <;> simp [warning?, hKind]

/-- A command that opens a segment first enters its scene or its step and then opens a
segment with its title. -/
theorem apply_of_opens (h : c.opens = true) :
    t.apply c = (t.enter c).openSegment c.start c.title := by
  rcases of_decide_eq_true h with hKind | hKind
  · simp only [apply, enter, Command.title, hKind, if_true]
    split <;> rfl
  · simp [apply, enter, Command.title, hKind]

/-- A tag is added to the segment that was opened last, and nothing else changes. -/
theorem apply_tag {s : Segment} {ss : List Segment} (h : c.isTag = true)
    (hSegments : t.segments = s :: ss) :
    t.apply c = { t with segments := s.addTag c.label :: ss } := by
  simp only [apply, of_decide_eq_true h, hSegments, Segment.addTag]

/-- A tag before the first segment gives a warning and nothing else. -/
theorem apply_orphan (h : c.isTag = true) (hSegments : t.segments = []) :
    t.apply c = { t with warnings := orphan c :: t.warnings } := by
  simp only [apply, of_decide_eq_true h, hSegments]

/-- A deprecated ending gives a warning, whatever there is, and nothing else. -/
theorem apply_deprecated (h : c.kind = .deprecatedEnding) :
    t.apply c = { t with warnings := deprecated c :: t.warnings } := by
  simp only [apply, h]

/-- Every command opens a segment, or is a tag, or is a deprecated ending. So three
equations tell what a step does. -/
theorem opens_or_isTag_or_deprecated (c : Command) :
    c.opens = true ∨ c.isTag = true ∨ c.kind = .deprecatedEnding := by
  cases hKind : c.kind <;> simp [Command.opens, Command.isTag, hKind]

theorem enter_segments : (t.enter c).segments = t.segments := by
  unfold enter
  split
  · split <;> rfl
  · rfl

theorem enter_warnings : (t.enter c).warnings = t.warnings := by
  unfold enter
  split
  · split <;> rfl
  · rfl

theorem openSegment_segments (start : Seconds) (label : String) :
    (t.openSegment start label).segments =
      ⟨t.nextIndex, start, start, t.scene, t.step, label, .empty⟩ :: t.segments := rfl

/-- A command adds one start if it opens a segment, and no command changes an earlier
one. -/
theorem starts_apply :
    (t.apply c).segments.map Segment.start =
      (if c.opens then [c.start] else []) ++ t.segments.map Segment.start := by
  rcases opens_or_isTag_or_deprecated c with hOpens | hTag | hDeprecated
  · simp [apply_of_opens hOpens, hOpens, openSegment_segments, enter_segments]
  · have hOpens : c.opens = false := by simp_all [Command.opens, Command.isTag]
    cases hSegments : t.segments with
    | nil => simp [apply_orphan hTag hSegments, hOpens, hSegments]
    | cons s ss => simp [apply_tag hTag hSegments, hOpens, Segment.addTag]
  · have hOpens : c.opens = false := by simp [Command.opens, hDeprecated]
    simp [apply_deprecated hDeprecated, hOpens]

/-- The segments start at the commands that open them, in the order of these commands.
No later command moves a start. -/
theorem starts_foldl_apply (commands : List Command) (t : Timeline) :
    (commands.foldl apply t).segments.reverse.map Segment.start =
      t.segments.reverse.map Segment.start ++
        (commands.filter Command.opens).map Command.start := by
  induction commands generalizing t with
  | nil => simp
  | cons c commands ih =>
      rw [List.foldl_cons, ih, List.map_reverse, starts_apply]
      cases hOpens : c.opens <;> simp [hOpens]

/-- There is a segment as soon as a command has opened one, and from then on. -/
theorem isEmpty_apply : (t.apply c).segments.isEmpty = (t.segments.isEmpty && !c.opens) := by
  have hStarts := congrArg List.isEmpty (starts_apply (t := t) (c := c))
  simp only [List.isEmpty_map] at hStarts
  rw [hStarts]
  cases c.opens <;> simp

/-- What a command warns about depends on the command and on whether there is a segment
yet. -/
theorem warnings_apply :
    (t.apply c).warnings = (warning? (!t.segments.isEmpty) c).toList ++ t.warnings := by
  rcases opens_or_isTag_or_deprecated c with hOpens | hTag | hDeprecated
  · rw [apply_of_opens hOpens, warning?_of_opens hOpens]
    exact enter_warnings
  · have hKind := of_decide_eq_true hTag
    cases hSegments : t.segments with
    | nil => simp [apply_orphan hTag hSegments, warning?, hKind]
    | cons s ss => simp [apply_tag hTag hSegments, warning?, hKind]
  · simp [apply_deprecated hDeprecated, warning?, hDeprecated]

/-- Once a segment is there, a tag leaves no warning any more. -/
theorem warnings_foldl_apply (commands : List Command) (t : Timeline) :
    (commands.foldl apply t).warnings.reverse = t.warnings.reverse ++
      if t.segments.isEmpty then
        (commands.takeWhile fun c => !c.opens).filterMap (warning? false) ++
          (commands.dropWhile fun c => !c.opens).filterMap (warning? true)
      else commands.filterMap (warning? true) := by
  induction commands generalizing t with
  | nil => simp
  | cons c commands ih =>
      have hFirst (opened : Bool) (rest : List Command) :
          (c :: rest).filterMap (warning? opened) =
            (warning? opened c).toList ++ rest.filterMap (warning? opened) := by
        cases hWarning : warning? opened c <;> simp [hWarning]
      rw [List.foldl_cons, ih, warnings_apply, isEmpty_apply]
      cases t.segments.isEmpty with
      | false => cases hWarning : warning? true c <;> simp [hFirst, hWarning]
      | true =>
          cases hOpens : c.opens with
          | true => simp [hFirst, hOpens, warning?_of_opens hOpens]
          | false => cases hWarning : warning? false c <;> simp [hFirst, hOpens, hWarning]

end Timeline

/-- The segments, latest first, are counted from one. -/
def Segment.Numbered : List Segment → Prop
  | [] => True
  | s :: ss => s.index = ss.length + 1 ∧ Numbered ss

/-- Numbered segments have their places as their indices, counted from one. -/
theorem Segment.Numbered.index_eq {segments : List Segment} (h : Numbered segments) {i : Nat}
    {s : Segment} (hAt : segments.reverse[i]? = some s) : s.index = i + 1 := by
  induction segments with
  | nil => cases hAt
  | cons first rest ih =>
      rw [List.reverse_cons, List.getElem?_append, List.length_reverse] at hAt
      split at hAt
      · exact ih h.2 hAt
      · next hLength =>
        obtain ⟨hIndex, hFirst⟩ := List.getElem?_eq_some_iff.mp hAt
        have hPlace : i = rest.length := by
          rw [List.length_singleton] at hIndex
          omega
        simp only [List.getElem_singleton] at hFirst
        rw [← hFirst, h.1, hPlace]

namespace Timeline

/-- Where the segments are numbered, the next index is that of the next place. -/
theorem nextIndex_eq {t : Timeline} (h : Segment.Numbered t.segments) :
    t.nextIndex = t.segments.length + 1 := by
  unfold nextIndex
  cases hSegments : t.segments with
  | nil => rfl
  | cons s ss =>
      rw [hSegments] at h
      simp only [h.1, List.length_cons]

theorem numbered_apply {t : Timeline} (h : Segment.Numbered t.segments) (c : Command) :
    Segment.Numbered (t.apply c).segments := by
  rcases opens_or_isTag_or_deprecated c with hOpens | hTag | hDeprecated
  · rw [apply_of_opens hOpens, openSegment_segments, enter_segments]
    have hEntered : Segment.Numbered (t.enter c).segments := by rwa [enter_segments]
    exact ⟨by rw [nextIndex_eq hEntered, enter_segments], h⟩
  · cases hSegments : t.segments with
    | nil => simp [apply_orphan hTag hSegments, hSegments, Segment.Numbered]
    | cons s ss =>
        rw [hSegments] at h
        rw [apply_tag hTag hSegments]
        exact h
  · rw [apply_deprecated hDeprecated]
    exact h

/-- Commands leave the segments numbered, however many they are. -/
theorem numbered_foldl_apply (commands : List Command) {t : Timeline}
    (h : Segment.Numbered t.segments) :
    Segment.Numbered (commands.foldl apply t).segments := by
  induction commands generalizing t with
  | nil => exact h
  | cons c commands ih => exact ih (numbered_apply h c)

end Timeline

end RoughCut
