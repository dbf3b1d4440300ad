import RoughCut.Proofs.CutStages
import RoughCut.Proofs.Tags

/-!
The spans of segments. Between the command that opens a segment and the next
one that opens any, a command can only tag it, and after that nothing changes
it at all. So the place of an opening command in the ordered list says what
its segment is in the end.
-/

namespace RoughCut

/-- A list can be parted at each of the members that a test counts. -/
theorem exists_split_of_lt_countP {α : Type} {p : α → Bool} {l : List α} {k : Nat}
    (h : k < l.countP p) :
    ∃ before a after, l = before ++ a :: after ∧ p a = true ∧ before.countP p = k := by
  induction l generalizing k with
  | nil => cases h
  | cons b l ih =>
      cases hTest : p b with
      | false =>
          rw [List.countP_cons_of_neg (by simp [hTest])] at h
          obtain ⟨before, a, after, rfl, ha, hCount⟩ := ih h
          exact ⟨b :: before, a, after, rfl, ha, by simpa [hTest] using hCount⟩
      | true =>
          cases k with
          | zero => exact ⟨[], b, l, rfl, hTest, rfl⟩
          | succ k =>
              rw [List.countP_cons_of_pos hTest] at h
              obtain ⟨before, a, after, rfl, ha, hCount⟩ := ih (Nat.lt_of_succ_lt_succ h)
              exact ⟨b :: before, a, after, rfl, ha, by simp [hTest, hCount]⟩

namespace Command

/-- The commands before the next one that opens a segment. -/
def span (commands : List Command) : List Command :=
  commands.takeWhile fun c => !c.opens

/-- The tags among the commands. -/
def tagLabels (commands : List Command) : List String :=
  (commands.filter isTag).map label

/-- The tags of some commands are the labels of those among them that are tags. -/
theorem mem_tagLabels {commands : List Command} {tag : String} :
    tag ∈ tagLabels commands ↔ ∃ d ∈ commands, d.isTag = true ∧ d.label = tag := by
  simp only [tagLabels, List.mem_map, List.mem_filter, and_assoc]

variable {c : Command} {commands : List Command}

/-- What belongs to a segment ends where the next one is opened. -/
theorem span_of_opens (h : c.opens = true) : span (c :: commands) = [] := by
  simp [span, h]

/-- A tag before the next segment belongs to the one that is open. -/
theorem tagLabels_span_tag (h : c.isTag = true) :
    tagLabels (span (c :: commands)) = c.label :: tagLabels (span commands) := by
  have hOpens : c.opens = false := by simp_all [opens, isTag]
  simp [span, tagLabels, hOpens, h]

theorem tagLabels_span_deprecated (h : c.kind = .deprecatedEnding) :
    tagLabels (span (c :: commands)) = tagLabels (span commands) := by
  simp [span, tagLabels, opens, isTag, h]

end Command

/-- The segment with more tags. -/
def Segment.addTags (labels : List String) (s : Segment) : Segment :=
  { s with tags := labels.foldl Tags.insert s.tags }

namespace Timeline

variable {t : Timeline} {c : Command} {s : Segment} {ss : List Segment}

/-- The segment opened last gets the tags of its span, and those before it are
never changed again. -/
theorem exists_newer_foldl_apply (h : t.segments = s :: ss) (commands : List Command) :
    ∃ newer, (commands.foldl apply t).segments =
      newer ++ s.addTags (Command.tagLabels (Command.span commands)) :: ss := by
  induction commands generalizing t s ss with
  | nil => exact ⟨[], h⟩
  | cons c commands ih =>
      rw [List.foldl_cons]
      rcases opens_or_isTag_or_deprecated c with hOpens | hTag | hDeprecated
      · have hNext := openSegment_segments (t := t.enter c) c.start c.title
        rw [enter_segments, h, ← apply_of_opens hOpens] at hNext
        obtain ⟨newer, hRest⟩ := ih hNext
        rw [Command.span_of_opens hOpens, hRest]
        exact ⟨newer ++ [_], List.append_cons newer _ (s :: ss)⟩
      · have hTagged : (t.apply c).segments = s.addTag c.label :: ss := by
          rw [apply_tag hTag h]
        rw [Command.tagLabels_span_tag hTag]
        exact ih hTagged
      · have hSame : (t.apply c).segments = s :: ss := by
          rw [apply_deprecated hDeprecated, h]
        rw [Command.tagLabels_span_deprecated hDeprecated]
        exact ih hSame

/-- There are as many segments on a timeline as commands that have opened one. -/
theorem length_foldl_apply (commands : List Command) :
    (commands.foldl apply initial).segments.length = commands.countP Command.opens := by
  have hStarts := congrArg List.length (starts_foldl_apply commands initial)
  simpa [initial, List.countP_eq_length_filter] using hStarts

/-- The segment of an opening command when all commands are taken. -/
theorem getElem?_foldl_apply_of_opens (hOpens : c.opens = true) (before after : List Command) :
    ((before ++ c :: after).foldl apply initial).segments.reverse[before.countP Command.opens]? =
      some ⟨before.countP Command.opens + 1, c.start, c.start,
        ((before.foldl apply initial).enter c).scene,
        ((before.foldl apply initial).enter c).step, c.title,
        Tags.ofList (Command.tagLabels (Command.span after))⟩ := by
  have hCount : (before.foldl apply initial).nextIndex = before.countP Command.opens + 1 := by
    have hNumbered : Segment.Numbered initial.segments := trivial
    rw [nextIndex_eq (numbered_foldl_apply before hNumbered), length_foldl_apply]
  generalize hTimeline : before.foldl apply initial = t at hCount
  have hEarlier : t.segments.length = before.countP Command.opens := by
    rw [← hTimeline, length_foldl_apply]
  have hOpened := openSegment_segments (t := t.enter c) c.start c.title
  rw [← apply_of_opens hOpens] at hOpened
  obtain ⟨newer, hLater⟩ := exists_newer_foldl_apply hOpened after
  rw [List.foldl_append, List.foldl_cons, hTimeline, hLater, enter_segments,
    List.reverse_append, List.reverse_cons, List.append_assoc,
    List.getElem?_append_right (by simp [hEarlier])]
  simp [hEarlier, Segment.addTags, Tags.ofList, nextIndex, enter_segments, ← hCount]

end Timeline

section

variable (commands : List Command) (footage : Seconds) (report : Report)

theorem segments_buildSegments :
    (buildSegments commands footage report).1 =
      Segment.closeAll footage (Timeline.ofCommands commands).segments.reverse := rfl

theorem length_buildSegments :
    (buildSegments commands footage report).1.length =
      (Command.inOrder commands).countP Command.opens := by
  rw [segments_buildSegments, Segment.length_closeAll, List.length_reverse]
  exact Timeline.length_foldl_apply _

/-- The segment of an opening command: its number and its context come from the
commands before it, its tags from those in its span. -/
theorem exists_segment_of_opens {before after : List Command} {c : Command}
    (h : Command.inOrder commands = before ++ c :: after) (hOpens : c.opens = true) :
    ∃ stop, (buildSegments commands footage report).1[before.countP Command.opens]? =
      some ⟨before.countP Command.opens + 1, c.start, stop,
        ((before.foldl Timeline.apply .initial).enter c).scene,
        ((before.foldl Timeline.apply .initial).enter c).step, c.title,
        Tags.ofList (Command.tagLabels (Command.span after))⟩ := by
  rw [segments_buildSegments, Segment.getElem?_closeAll, Timeline.ofCommands, h,
    Timeline.getElem?_foldl_apply_of_opens hOpens]
  exact ⟨_, rfl⟩

end

end RoughCut
