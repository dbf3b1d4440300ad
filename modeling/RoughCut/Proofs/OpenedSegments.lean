import RoughCut.Proofs.CutStages
import RoughCut.Proofs.WindowPlaces

/-!
Which command opens which segment. The segments of a cut are those of the
commands that open one, in the order in which the commands are taken, and what
comes after a segment is opened changes neither its start nor its name nor its
scene and step.
-/

namespace RoughCut

variable {c : Command} {cs : List Command} {t : Timeline} {s : Segment}

/-- The command opens the segment: it starts with it, is named by it, and is in
the scene or in the step that it begins. -/
structure Command.Opened (c : Command) (s : Segment) : Prop where
  opens : c.opens = true
  start : s.start = c.start
  label : s.label = c.title
  number : c.kind = .start →
    if c.category = .scene then s.scene = c.number ∧ s.step = none else s.step = c.number

theorem Command.Opened.addTag (h : c.Opened s) (tag : String) : c.Opened (s.addTag tag) :=
  ⟨h.opens, h.start, h.label, h.number⟩

theorem Command.Opened.close (h : c.Opened s) (footage : Seconds) (next : Option Seconds) :
    c.Opened (s.close footage next) :=
  ⟨h.opens, h.start, h.label, h.number⟩

namespace Timeline

/-- A command that starts something gives its number to the scene or to the step. A new
scene ends the steps of the one before. -/
theorem enter_number (t : Timeline) (h : c.kind = .start) :
    if c.category = .scene then (t.enter c).scene = c.number ∧ (t.enter c).step = none
    else (t.enter c).step = c.number := by
  unfold enter
  split_ifs <;> simp

/-- The segments, latest first, are those of the commands taken so far. Only a command
that opens one adds to both lists. -/
theorem opened_apply (h : List.Forall₂ Command.Opened cs t.segments) (c : Command) :
    List.Forall₂ Command.Opened ((if c.opens then [c] else []) ++ cs) (t.apply c).segments := by
  rcases opens_or_isTag_or_deprecated c with hOpens | hTag | hDeprecated
  · rw [apply_of_opens hOpens, openSegment_segments, enter_segments, hOpens]
    exact .cons ⟨hOpens, rfl, rfl, enter_number t⟩ h
  · have hOpens : c.opens = false := by simp_all [Command.opens, Command.isTag]
    cases hSegments : t.segments with
    | nil =>
        rw [hSegments] at h
        simpa [apply_orphan hTag hSegments, hOpens, hSegments] using h
    | cons s ss =>
        rw [hSegments] at h
        cases h with
        | cons hLast hEarlier =>
            simpa [apply_tag hTag hSegments, hOpens] using ⟨hLast.addTag c.label, hEarlier⟩
  · have hOpens : c.opens = false := by simp [Command.opens, hDeprecated]
    simpa [apply_deprecated hDeprecated, hOpens] using h

/-- Commands open segments one behind the other. Whatever is commanded afterwards, each
of them stays the segment of the command that has opened it. -/
theorem opened_foldl_apply (h : List.Forall₂ Command.Opened cs t.segments)
    (commands : List Command) :
    List.Forall₂ Command.Opened ((commands.filter Command.opens).reverse ++ cs)
      (commands.foldl apply t).segments := by
  induction commands generalizing cs t with
  | nil => exact h
  | cons c commands ih =>
      have hRest := ih (opened_apply h c)
      cases hOpens : c.opens <;> simpa [hOpens] using hRest

end Timeline

/-- Closing changes nothing that a command has to do with. It sets the ends of segments,
and commands tell only how they begin. -/
theorem Segment.opened_closeAll {segments : List Segment} (footage : Seconds)
    (h : List.Forall₂ Command.Opened cs segments) :
    List.Forall₂ Command.Opened cs (closeAll footage segments) := by
  obtain ⟨hLength, hOpened⟩ := List.forall₂_iff_get.mp h
  refine List.forall₂_iff_get.mpr ⟨by rw [hLength, length_closeAll], fun i hi hi' => ?_⟩
  have hHere : segments[i]? = some segments[i] := List.getElem?_eq_getElem _
  have hClosed : (closeAll footage segments)[i]? = some (closeAll footage segments)[i] :=
    List.getElem?_eq_getElem hi'
  rw [getElem?_closeAll, hHere, Option.map_some, Option.some_inj] at hClosed
  simp only [List.get_eq_getElem, ← hClosed]
  exact (hOpened i hi (hLength ▸ hi)).close footage _

/-- The segments of a timeline, first to last, and the commands that open them. -/
theorem Timeline.opened_ofCommands (commands : List Command) :
    List.Forall₂ Command.Opened ((Command.inOrder commands).filter Command.opens)
      (ofCommands commands).segments.reverse := by
  have hFold := opened_foldl_apply (t := initial) .nil (Command.inOrder commands)
  rw [List.append_nil] at hFold
  simpa [ofCommands] using List.forall₂_reverse_iff.mpr hFold

/-- No segment comes from nowhere. Each was opened by one of the commands. -/
theorem Timeline.exists_opened_of_mem {commands : List Command} {s : Segment}
    (h : s ∈ (ofCommands commands).segments) : ∃ c ∈ commands, c.Opened s := by
  obtain ⟨c, hMem, hOpened⟩ :=
    exists_key_of_mem (opened_ofCommands commands) (List.mem_reverse.mpr h)
  have hCommand := (List.mem_filter.mp hMem).1
  exact ⟨c, (Command.perm_inOrder commands).mem_iff.mp hCommand, hOpened⟩

/-- The segments of a cut and the commands that open them, in their order. -/
theorem Cut.opened_segments (tokens : List Token) (footage : Seconds) :
    List.Forall₂ Command.Opened ((Command.inOrder (commands tokens)).filter Command.opens)
      (ofTokens tokens footage).segments := by
  rw [segments_ofTokens]
  exact Segment.opened_closeAll footage (Timeline.opened_ofCommands (commands tokens))

namespace Cut

variable {tokens : List Token} {footage : Seconds}

/-- A command is made of a window and starts at its slate, so a segment that it opens
does as well. -/
theorem exists_slate_of_opened (h : c ∈ commands tokens) (hOpened : c.Opened s) :
    ∃ slate ∈ (Token.normalized tokens).filter Token.isSlate, slate.start = s.start := by
  obtain ⟨slate, hWord, hSlate, hStart⟩ := exists_slate_of_mem_commands h
  exact ⟨slate, List.mem_filter.mpr ⟨hWord, hSlate⟩, by rw [hStart, hOpened.start]⟩

theorem exists_slate_of_mem_timeline (h : s ∈ (Timeline.ofCommands (commands tokens)).segments) :
    ∃ slate ∈ (Token.normalized tokens).filter Token.isSlate, slate.start = s.start := by
  obtain ⟨c, hCommand, hOpened⟩ := Timeline.exists_opened_of_mem h
  exact exists_slate_of_opened hCommand hOpened

/-- A segment starts with a slate of the tokens. -/
theorem exists_slate_of_mem_segments (h : s ∈ (ofTokens tokens footage).segments) :
    ∃ slate ∈ (Token.normalized tokens).filter Token.isSlate, slate.start = s.start := by
  obtain ⟨c, hMem, hOpened⟩ := exists_key_of_mem (opened_segments tokens footage) h
  exact exists_slate_of_opened ((Command.perm_inOrder _).mem_iff.mp (List.mem_filter.mp hMem).1)
    hOpened

end Cut

end RoughCut
