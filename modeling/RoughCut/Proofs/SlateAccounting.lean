import RoughCut.Proofs.CommandOrder
import RoughCut.Proofs.CutStages

/-!
Every slate of a recording is accounted for. It starts a segment, or is
reported as an error or a warning, or tags a segment that is there; it does
one of these once, and under its own time.
-/

namespace RoughCut

/-- The tags among ordered commands that have a segment to go to, which are
those after the first command that opens one. -/
def Command.tagsWithSegment (ordered : List Command) : List Command :=
  (ordered.dropWhile fun c => !c.opens).filter isTag

namespace Timeline

/-- A tag that has no segment to go to leaves a warning. -/
theorem warning?_false {c : Command} (h : c.opens = false) :
    ∃ i, warning? false c = some i ∧ i.start = c.start := by
  rcases opens_or_isTag_or_deprecated c with hOpens | hTag | hDeprecated
  · rw [h] at hOpens
    cases hOpens
  · exact ⟨orphan c, by simp [warning?, of_decide_eq_true hTag], rfl⟩
  · exact ⟨deprecated c, by simp [warning?, hDeprecated], rfl⟩

/-- Once a segment is there, a command opens another, leaves a warning or tags. -/
theorem commands_perm_opened (commands : List Command) :
    (commands.map Command.start).Perm
      ((commands.filter Command.opens).map Command.start ++
        ((commands.filterMap (warning? true)).map Issue.start ++
          (commands.filter Command.isTag).map Command.start)) := by
  induction commands with
  | nil => exact List.Perm.refl _
  | cons c commands ih =>
      rcases opens_or_isTag_or_deprecated c with hOpens | hTag | hDeprecated
      · have hTag : c.isTag = false := by
          rcases of_decide_eq_true hOpens with hKind | hKind <;> simp [Command.isTag, hKind]
        simpa [hOpens, hTag, warning?_of_opens hOpens] using ih
      · have hKind := of_decide_eq_true hTag
        have hOpens : c.opens = false := by simp [Command.opens, hKind]
        have hWarning : warning? true c = none := by simp [warning?, hKind]
        simp only [List.map_cons, List.filter_cons, List.filterMap_cons, hOpens, hTag, hWarning]
        refine (ih.cons _).trans ?_
        rw [← List.append_assoc, ← List.append_assoc]
        exact List.perm_middle.symm
      · have hOpens : c.opens = false := by simp [Command.opens, hDeprecated]
        have hTag : c.isTag = false := by simp [Command.isTag, hDeprecated]
        have hWarning : warning? true c = some (deprecated c) := by simp [warning?, hDeprecated]
        simp only [List.map_cons, List.filter_cons, List.filterMap_cons, hOpens, hTag, hWarning]
        exact (ih.cons _).trans List.perm_middle.symm

/-- A command opens a segment, leaves a warning, or tags a segment. -/
theorem commands_perm (commands : List Command) :
    (commands.map Command.start).Perm
      ((commands.filter Command.opens).map Command.start ++
        ((commands.foldl apply initial).warnings.reverse.map Issue.start ++
          (Command.tagsWithSegment commands).map Command.start)) := by
  rw [warnings_foldl_apply, Command.tagsWithSegment]
  simp only [initial, List.isEmpty_nil, List.reverse_nil, List.nil_append, if_true]
  induction commands with
  | nil => exact List.Perm.refl _
  | cons c commands ih =>
      cases hOpens : c.opens with
      | true =>
          have hAll := commands_perm_opened (c :: commands)
          simpa [hOpens] using hAll
      | false =>
          obtain ⟨i, hWarning, hStart⟩ := warning?_false hOpens
          simp only [List.map_cons, List.filter_cons, List.takeWhile_cons, List.dropWhile_cons,
            List.filterMap_cons, hOpens, hWarning, Bool.not_false, if_true, List.cons_append,
            hStart]
          exact (ih.cons _).trans List.perm_middle.symm

/-- A timeline warns of nothing but tags without a segment and deprecated endings. -/
theorem kind_of_mem_warnings {commands : List Command} {i : Issue}
    (h : i ∈ (commands.foldl apply initial).warnings) :
    i.kind = .orphanRetroactive ∨ i.kind = .deprecatedCommand := by
  have hFrom (opened : Bool) (rest : List Command) (hMem : i ∈ rest.filterMap (warning? opened)) :
      i.kind = .orphanRetroactive ∨ i.kind = .deprecatedCommand := by
    obtain ⟨c, _, hWarning⟩ := List.mem_filterMap.mp hMem
    cases hKind : c.kind <;> simp only [warning?, hKind] at hWarning
    · cases hWarning
    · cases hWarning
    · split at hWarning
      · cases hWarning
      · exact Or.inl (Option.some.inj hWarning ▸ rfl)
    · exact Or.inr (Option.some.inj hWarning ▸ rfl)
  rw [← List.mem_reverse, warnings_foldl_apply] at h
  simp only [initial, List.isEmpty_nil, List.reverse_nil, List.nil_append, if_true,
    List.mem_append] at h
  exact h.elim (hFrom false _) (hFrom true _)

end Timeline

namespace Cut

/-- Every slate is a segment, an error, a warning, or a tag on a segment that is
there, once and under its own time. Errors are about windows and warnings about
commands, and a segment is there for every command that opens one. -/
theorem slates_accounted (tokens : List Token) (footage : Seconds) :
    let cut := ofTokens tokens footage
    (((Token.normalized tokens).filter Token.isSlate).map Token.start).Perm
        (cut.segments.map Segment.start ++ cut.report.errors.map Issue.start ++
          cut.report.warnings.map Issue.start ++
          (Command.tagsWithSegment (Command.inOrder (commands tokens))).map Command.start) ∧
      (∀ i ∈ cut.report.errors, i.kind = .malformedMarker ∨ i.kind = .unrecognizedCommand) ∧
      (∀ i ∈ cut.report.warnings, i.kind = .orphanRetroactive ∨ i.kind = .deprecatedCommand) ∧
      cut.segments.length = (commands tokens).countP Command.opens := by
  intro cut
  have hStarts : cut.segments.map Segment.start = _ := starts_segments tokens footage
  have hErrors : cut.report.errors = _ := errors_ofTokens tokens footage
  have hWarnings : cut.report.warnings = _ := warnings_ofTokens tokens footage
  refine ⟨?_, ?_, ?_, ?_⟩
  · rw [hStarts, hErrors, hWarnings, List.perm_iff_count]
    intro time
    have hSlates := (Token.slates_perm (Token.normalized tokens)).count_eq time
    have hWindows := (Window.starts_perm (Token.windows (Token.normalized tokens))).count_eq time
    have hOrder := ((Command.perm_inOrder (commands tokens)).map Command.start).count_eq time
    have hCommands := (Timeline.commands_perm (Command.inOrder (commands tokens))).count_eq time
    rw [← commands_eq] at hWindows
    simp only [List.map_append, List.count_append] at hSlates hWindows hCommands ⊢
    rw [Timeline.ofCommands]
    omega
  · intro i hMem
    rw [hErrors, List.mem_append] at hMem
    rcases hMem with hMem | hMem
    · exact Or.inl (Token.kind_of_mem_malformed hMem)
    · obtain ⟨w, _, hIssue⟩ := List.mem_filterMap.mp hMem
      rcases w.command?_or_issue? with ⟨_, _, hNone, _⟩ | ⟨j, hSome, _, _, hKind⟩
      · rw [hNone] at hIssue
        cases hIssue
      · rw [hSome] at hIssue
        exact Or.inr (Option.some.inj hIssue ▸ hKind)
  · intro i hMem
    rw [hWarnings, List.mem_reverse] at hMem
    exact Timeline.kind_of_mem_warnings hMem
  · exact length_segments tokens footage

end Cut

end RoughCut
