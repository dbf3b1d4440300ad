import RoughCut.Proofs.CommandOrder
import RoughCut.Proofs.CutStages
import RoughCut.Proofs.Tags

/-!
Commands that open no segment. Where such a command comes into a timeline, it
leaves a warning or a tag there, and all that comes after it goes on as if it
had not been given.
-/

namespace RoughCut

/-- One more issue somewhere in a list, the others as they were. -/
def Issue.Added (i : Issue) (before after : List Issue) : Prop :=
  ∃ first last, before = first ++ last ∧ after = first ++ i :: last

theorem Issue.Added.append_left {i : Issue} {before after : List Issue} (h : Added i before after)
    (issues : List Issue) : Added i (issues ++ before) (issues ++ after) := by
  obtain ⟨first, last, rfl, rfl⟩ := h
  exact ⟨issues ++ first, last, by simp, by simp⟩

theorem Issue.Added.reverse {i : Issue} {before after : List Issue} (h : Added i before after) :
    Added i before.reverse after.reverse := by
  obtain ⟨first, last, rfl, rfl⟩ := h
  exact ⟨last.reverse, first.reverse, by simp, by simp⟩

namespace Timeline

/-- The second timeline is the first one with one more warning. -/
def Warned (i : Issue) (t u : Timeline) : Prop :=
  ∃ warnings, Issue.Added i t.warnings warnings ∧ u = { t with warnings := warnings }

/-- The second timeline is the first one with the tag on one of its segments. -/
def Tagged (tag : String) (t u : Timeline) : Prop :=
  ∃ later s earlier, t.segments = later ++ s :: earlier ∧
    u = { t with segments := later ++ s.addTag tag :: earlier }

/-- A command that opens no segment leaves a warning or a tag, and nothing else. -/
theorem apply_of_not_opens {c : Command} (h : c.opens = false) (t : Timeline) :
    (∃ i, warning? (!t.segments.isEmpty) c = some i ∧ Warned i t (t.apply c)) ∨
      (c.isTag = true ∧ Tagged c.label t (t.apply c)) := by
  rcases opens_or_isTag_or_deprecated c with hOpens | hTag | hDeprecated
  · rw [h] at hOpens
    cases hOpens
  · have hKind := of_decide_eq_true hTag
    cases hSegments : t.segments with
    | nil =>
        refine Or.inl ⟨orphan c, by simp [warning?, hKind], _, ⟨[], t.warnings, rfl, rfl⟩, ?_⟩
        exact apply_orphan hTag hSegments
    | cons s ss => exact Or.inr ⟨hTag, [], s, ss, hSegments, apply_tag hTag hSegments⟩
  · refine Or.inl ⟨deprecated c, by simp [warning?, hDeprecated], _, ⟨[], t.warnings, rfl, rfl⟩, ?_⟩
    exact apply_deprecated hDeprecated

/-- A command adds its warning to whatever warnings there are, and does not
look at them. -/
theorem apply_withWarnings (t : Timeline) (warnings : List Issue) (c : Command) :
    apply { t with warnings := warnings } c =
      { t.apply c with warnings := (warning? (!t.segments.isEmpty) c).toList ++ warnings } := by
  cases hKind : c.kind with
  | start =>
      simp only [apply, hKind, warning?, openSegment]
      split <;> rfl
  | standalone => simp [apply, hKind, warning?, openSegment, nextIndex]
  | retroactive => cases hSegments : t.segments <;> simp [apply, hKind, hSegments, warning?]
  | deprecatedEnding => simp [apply, hKind, warning?]

/-- Two timelines that differ in one warning still do after the same command, for no
command looks at warnings. -/
theorem Warned.apply {i : Issue} {t u : Timeline} (h : Warned i t u) (c : Command) :
    Warned i (t.apply c) (u.apply c) := by
  obtain ⟨warnings, hAdded, rfl⟩ := h
  refine ⟨_, ?_, apply_withWarnings t warnings c⟩
  rw [warnings_apply]
  exact hAdded.append_left _

/-- A segment is opened on top of the others, and of the one before it only the
index is looked at. -/
theorem openSegment_tagged {t : Timeline} {later earlier : List Segment} {s : Segment}
    (hSegments : t.segments = later ++ s :: earlier) (tag : String) (start : Seconds)
    (label : String) :
    openSegment { t with segments := later ++ s.addTag tag :: earlier } start label =
      { t.openSegment start label with
        segments := ⟨t.nextIndex, start, start, t.scene, t.step, label, .empty⟩ ::
          (later ++ s.addTag tag :: earlier) } := by
  have hIndex :
      nextIndex { t with segments := later ++ s.addTag tag :: earlier } = t.nextIndex := by
    cases later <;> simp [nextIndex, hSegments, Segment.addTag]
  rw [openSegment, hIndex]
  rfl

/-- What tags a segment has is of no consequence to later commands, and a tag
given later joins them in the same way. -/
theorem Tagged.apply {tag : String} {t u : Timeline} (h : Tagged tag t u) (c : Command) :
    Tagged tag (t.apply c) (u.apply c) := by
  obtain ⟨later, s, earlier, hSegments, rfl⟩ := h
  rcases opens_or_isTag_or_deprecated c with hOpens | hTag | hDeprecated
  · have hEntered : (t.enter c).segments = later ++ s :: earlier := by
      rw [enter_segments, hSegments]
    have hEnter : enter { t with segments := later ++ s.addTag tag :: earlier } c =
        { t.enter c with segments := later ++ s.addTag tag :: earlier } := by
      simp only [enter]
      split
      · split <;> rfl
      · rfl
    rw [apply_of_opens hOpens, apply_of_opens hOpens, hEnter]
    refine ⟨_ :: later, s, earlier, ?_, openSegment_tagged hEntered tag c.start c.title⟩
    rw [openSegment_segments, hEntered]
    rfl
  · cases later with
    | nil =>
        rw [apply_tag hTag hSegments, apply_tag hTag rfl]
        refine ⟨[], s.addTag c.label, earlier, rfl, ?_⟩
        simp [Segment.addTag, Tags.insert_comm]
    | cons first later =>
        rw [apply_tag hTag hSegments, apply_tag hTag rfl]
        exact ⟨first.addTag c.label :: later, s, earlier, rfl, rfl⟩
  · rw [apply_deprecated hDeprecated, apply_deprecated hDeprecated]
    exact ⟨later, s, earlier, hSegments, rfl⟩

/-- Two timelines that differ in one warning do so after all that is commanded later. -/
theorem Warned.foldl_apply {i : Issue} {t u : Timeline} (h : Warned i t u)
    (commands : List Command) :
    Warned i (commands.foldl Timeline.apply t) (commands.foldl Timeline.apply u) :=
  List.foldl_rel h fun c _ _ _ hWarned => hWarned.apply c

/-- Two timelines that differ in one tag of one segment do so after all that is
commanded later. -/
theorem Tagged.foldl_apply {tag : String} {t u : Timeline} (h : Tagged tag t u)
    (commands : List Command) :
    Tagged tag (commands.foldl Timeline.apply t) (commands.foldl Timeline.apply u) :=
  List.foldl_rel h fun c _ _ _ hTagged => hTagged.apply c

/-- A command more that opens no segment is a warning or a tag more in the
whole timeline, wherever its time puts it among the other commands. -/
theorem ofCommands_insert {c : Command} (h : c.opens = false) (xs ys : List Command) :
    (∃ i opened, warning? opened c = some i ∧
        Warned i (ofCommands (xs ++ ys)) (ofCommands (xs ++ c :: ys))) ∨
      (c.isTag = true ∧ Tagged c.label (ofCommands (xs ++ ys)) (ofCommands (xs ++ c :: ys))) := by
  obtain ⟨before, after, hWith, hWithout⟩ := Command.inOrder_insert xs ys c
  simp only [ofCommands, hWith, hWithout, List.foldl_append, List.foldl_cons]
  rcases apply_of_not_opens h (before.foldl apply initial) with
    ⟨i, hWarning, hWarned⟩ | ⟨hTag, hTagged⟩
  · exact Or.inl ⟨i, _, hWarning, hWarned.foldl_apply after⟩
  · exact Or.inr ⟨hTag, hTagged.foldl_apply after⟩

end Timeline

end RoughCut
