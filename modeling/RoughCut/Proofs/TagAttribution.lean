import RoughCut.Proofs.SegmentSpans

/-!
Where tags go. A tag belongs to the segment in whose span it is said. One that
is said before any segment goes nowhere, as an ending does, and the report has
a warning for it.
-/

namespace RoughCut

/-- The commands of an ordered list that have no effect: what is said before
the first segment, and every ending after that. -/
def Command.unheeded (commands : List Command) : List Command :=
  (commands.takeWhile fun c => !c.opens) ++
    (commands.dropWhile fun c => !c.opens).filter fun c => c.kind = .deprecatedEnding

/-- What the report says of a command that has no effect. -/
def Timeline.notice (c : Command) : Issue :=
  if c.kind = .retroactive then orphan c else deprecated c

namespace Timeline

variable {c : Command}

theorem notice_start (c : Command) : (notice c).start = c.start := by
  unfold notice
  split <;> rfl

theorem notice_kind (c : Command) :
    (notice c).kind =
      if c.kind = .retroactive then .orphanRetroactive else .deprecatedCommand := by
  unfold notice
  split <;> rfl

/-- Before the first segment all commands that open none give a warning. -/
theorem warning?_early (h : c.opens = false) : warning? false c = some (notice c) := by
  cases hKind : c.kind <;> simp_all [warning?, notice, Command.opens]

/-- Once there is a segment only deprecated endings give a warning. -/
theorem warning?_late (c : Command) :
    warning? true c = if c.kind = .deprecatedEnding then some (notice c) else none := by
  cases hKind : c.kind <;> simp [warning?, notice, hKind]

/-- The warnings of a list are those for what has no effect in it. They are gathered
with the latest first, so they are turned round. -/
theorem warnings_foldl_initial (commands : List Command) :
    (commands.foldl apply initial).warnings.reverse =
      (Command.unheeded commands).map notice := by
  have hEarly : (commands.takeWhile fun c => !c.opens).filterMap (warning? false) =
      (commands.takeWhile fun c => !c.opens).map notice := by
    rw [← List.filterMap_eq_map]
    refine List.filterMap_congr fun c hMem => warning?_early ?_
    simpa using List.mem_takeWhile_imp hMem
  have hLate (rest : List Command) : rest.filterMap (warning? true) =
      (rest.filter fun c => c.kind = .deprecatedEnding).map notice := by
    rw [← List.filterMap_eq_map, List.filterMap_filter]
    refine List.filterMap_congr fun c _ => ?_
    simp [warning?_late]
  rw [warnings_foldl_apply, Command.unheeded, List.map_append, hEarly, hLate]
  rfl

end Timeline

/-- The `k`-th segment has the tags that are said after the `k`-th command that
opens one and before the next, and no others. Every command without effect
leaves one warning at its own time, in the order of the commands and after the
warnings there were, and the errors stay as they are. -/
theorem tags_and_warnings_of_commands (commands : List Command) (footage : Seconds)
    (report : Report) :
    let ordered := Command.inOrder commands
    let built := buildSegments commands footage report
    built.1.length = ordered.countP Command.opens ∧
      (∀ before c after, ordered = before ++ c :: after → c.opens = true →
        ∃ s, built.1[before.countP Command.opens]? = some s ∧
          s.tags.toList.Pairwise (· < ·) ∧
          ∀ tag, tag ∈ s.tags.toList ↔
            ∃ d ∈ after.takeWhile fun d => !d.opens, d.kind = .retroactive ∧ d.label = tag) ∧
      built.2.errors = report.errors ∧
      built.2.warnings = report.warnings ++ (Command.unheeded ordered).map Timeline.notice ∧
      ∀ c, (Timeline.notice c).start = c.start ∧
        (Timeline.notice c).kind =
          if c.kind = .retroactive then .orphanRetroactive else .deprecatedCommand := by
  intro ordered built
  refine ⟨length_buildSegments commands footage report, fun before c after hSplit hOpens => ?_,
    rfl, ?_, fun c => ⟨Timeline.notice_start c, Timeline.notice_kind c⟩⟩
  · obtain ⟨stop, hSegment⟩ := exists_segment_of_opens commands footage report hSplit hOpens
    refine ⟨_, hSegment, Tags.increasing _, fun tag => ?_⟩
    simp only [Tags.mem_ofList, Command.mem_tagLabels, Command.isTag, decide_eq_true_eq]
    rfl
  · rw [← Timeline.warnings_foldl_initial]
    rfl

/-- A tag said twice in one span is there once, and a tag said before the first
segment is not there at all. -/
theorem tags_and_warnings_of_one_span :
    let time (seconds : Nat) : Seconds := Seconds.ofInt seconds
    let tag (seconds : Nat) (label : String) : Command :=
      ⟨.retroactive, time seconds, time seconds, .apply, none, label⟩
    let scene : Command := ⟨.start, time 2, time 2, .scene, some 1, ""⟩
    let mark : Command := ⟨.standalone, time 6, time 6, .mark, none, ""⟩
    let ending : Command := ⟨.deprecatedEnding, time 5, time 5, .ending, none, ""⟩
    let rest := [tag 3 "b", tag 4 "a", ending, tag 5 "b", mark, tag 7 "c"]
    let built := buildSegments (tag 1 "early" :: scene :: rest) (time 9) Report.empty
    ∃ s, built.1[0]? = some s ∧ (∀ x, x ∈ s.tags.toList ↔ x = "a" ∨ x = "b") ∧
      built.2.warnings = [Timeline.orphan (tag 1 "early"), Timeline.deprecated ending] := by
  intro time tag scene mark ending rest built
  have hOrder : Command.inOrder (tag 1 "early" :: scene :: rest) =
      [tag 1 "early"] ++ scene :: rest := by
    refine Command.Ordered.inOrder_eq ?_
    simp [Command.Ordered, tag, scene, rest, ending, mark, time]
    decide +kernel
  obtain ⟨-, hTags, -, hWarnings, -⟩ :=
    tags_and_warnings_of_commands (tag 1 "early" :: scene :: rest) (time 9) Report.empty
  obtain ⟨s, hSegment, -, hMem⟩ := hTags _ _ _ hOrder rfl
  refine ⟨s, hSegment, fun x => ?_, ?_⟩
  · have hTwice : x = "b" → x = "a" ∨ x = "b" := Or.inr
    rw [hMem]
    simpa [rest, tag, mark, ending, Command.opens, or_comm, eq_comm] using hTwice
  · rw [hWarnings, hOrder]
    rfl

end RoughCut
