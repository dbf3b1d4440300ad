import RoughCut.Cut
import RoughCut.Proofs.CommandOrder
import RoughCut.Proofs.SegmentClosing
import RoughCut.Proofs.Text.NormalForm
import RoughCut.Proofs.TimelineSteps
import RoughCut.Proofs.Windows

/-!
A cut stage by stage. Its errors come from the windows and its warnings and
segments from the commands alone, so what is known of the stages is known of
the cut.
-/

namespace RoughCut

namespace Command

/-- The words that make a command: one that names its category, the number of a
scene or step, and the label, which a tag does not go without. -/
theorem ofPayload_eq_ok_iff {payload : List String} {start stop : Seconds} {c : Command} :
    ofPayload payload start stop = .ok c ↔
      ∃ word rest category number said, payload = word :: rest ∧
        Category.ofWord? word = some category ∧
        splitNumber category rest = .ok (number, said) ∧
        ¬(category = .apply ∧ phrase said = "") ∧
        c = ⟨category.kind, start, stop, category, number, phrase said⟩ := by
  constructor
  · intro h
    unfold ofPayload at h
    split at h
    · cases h
    · next word rest =>
      split at h
      · cases h
      · next category hWord =>
        simp only [bind, Except.bind] at h
        split at h
        · cases h
        · next split hSplit =>
          split at h
          · cases h
          · next hTag =>
            cases h
            exact ⟨word, rest, category, split.1, split.2, rfl, hWord, hSplit,
              by simpa using hTag, rfl⟩
  · rintro ⟨word, rest, category, number, said, rfl, hWord, hSplit, hTag, rfl⟩
    simp only [ofPayload, hWord, bind, Except.bind, hSplit, String.isEmpty_iff, if_neg hTag]
    rfl

/-- A command keeps the times of its window, and does what its category does. -/
theorem of_ofPayload {payload : List String} {start stop : Seconds} {c : Command}
    (h : ofPayload payload start stop = .ok c) :
    c.start = start ∧ c.stop = stop ∧ c.kind = c.category.kind := by
  obtain ⟨_, _, _, _, _, _, _, _, _, rfl⟩ := ofPayload_eq_ok_iff.mp h
  exact ⟨rfl, rfl, rfl⟩

end Command

namespace Window

/-- A window gives the command as which its payload can be classified. -/
theorem command?_eq_some_iff {w : Window} {c : Command} :
    w.command? = some c ↔ Command.ofPayload w.payload w.start w.stop = .ok c := by
  unfold command? classify
  cases Command.ofPayload w.payload w.start w.stop <;> simp [Except.toOption]

/-- A window is a command or an issue, and not both. Either way the time of its
slate is kept. -/
theorem command?_or_issue? (w : Window) :
    (∃ c, w.command? = some c ∧ w.issue? = none ∧ c.start = w.start) ∨
      (∃ i, w.issue? = some i ∧ w.command? = none ∧ i.start = w.start ∧
        i.kind = .unrecognizedCommand) := by
  unfold command? issue? classify
  cases hPayload : Command.ofPayload w.payload w.start w.stop with
  | ok c => exact Or.inl ⟨c, rfl, rfl, (Command.of_ofPayload hPayload).1⟩
  | error reason => exact Or.inr ⟨_, rfl, rfl, rfl, rfl⟩

/-- A window gives an issue unless it gives a command. -/
theorem issue?_eq_none_iff {w : Window} : w.issue? = none ↔ w.command?.isSome = true := by
  rcases w.command?_or_issue? with ⟨c, hCommand, hIssue, _⟩ | ⟨i, hIssue, hCommand, _, _⟩ <;>
    simp [hCommand, hIssue]

/-- Every window is a command or is reported as unrecognized. No window is both, and
none is passed over. -/
theorem starts_perm (windows : List Window) :
    (windows.map start).Perm ((windows.filterMap command?).map Command.start ++
      (windows.filterMap issue?).map Issue.start) := by
  refine keys_perm_of_split (fun w => ?_) windows
  rcases w.command?_or_issue? with hCommand | ⟨i, hIssue, hNone, hStart, _⟩
  · exact Or.inl hCommand
  · exact Or.inr ⟨i, hIssue, hNone, hStart⟩

end Window

/-- The timeline that commands lead to, taken in the order of their times. -/
def Timeline.ofCommands (commands : List Command) : Timeline :=
  (Command.inOrder commands).foldl Timeline.apply Timeline.initial

namespace Cut

/-- The commands of the tokens, in the order in which they were scanned. -/
def commands (tokens : List Token) : List Command :=
  (scan (Token.normalized tokens) Report.empty).1.filterMap Window.command?

variable (tokens : List Token) (footage : Seconds)

/-- The commands of a transcript are those of its windows, in the order of these. -/
theorem commands_eq :
    commands tokens = (Token.windows (Token.normalized tokens)).filterMap Window.command? := by
  rw [commands, scan_eq]

/-- Where no window is open, the commands of both parts are found apart. An open window
would take words of the second part into its payload. -/
theorem commands_append {xs : List Token} (h : Token.AllClosed (Token.normalized xs))
    (ys : List Token) : commands (xs ++ ys) = commands xs ++ commands ys := by
  rw [commands_eq, commands_eq, commands_eq, Token.normalized_append, h.windows_append,
    List.filterMap_append]

/-- A command starts with a slate of the tokens. -/
theorem exists_slate_of_mem_commands {tokens : List Token} {c : Command}
    (h : c ∈ commands tokens) :
    ∃ t ∈ Token.normalized tokens, t.isSlate = true ∧ t.start = c.start := by
  rw [commands_eq] at h
  obtain ⟨w, hWindow, hCommand⟩ := List.mem_filterMap.mp h
  rw [(Command.of_ofPayload (Window.command?_eq_some_iff.mp hCommand)).1]
  exact Token.exists_slate_of_mem_windows hWindow

/-- The segments of a cut are those of its timeline, from the first to the last, with
their ends. -/
theorem segments_ofTokens :
    (ofTokens tokens footage).segments =
      Segment.closeAll footage (Timeline.ofCommands (commands tokens)).segments.reverse := rfl

/-- A segment of a cut is one of the timeline, with an end of its own. -/
theorem exists_open_of_mem_segments {tokens : List Token} {footage : Seconds} {s : Segment}
    (h : s ∈ (ofTokens tokens footage).segments) :
    ∃ o ∈ (Timeline.ofCommands (commands tokens)).segments, ∃ next, s = o.close footage next := by
  obtain ⟨i, hAt⟩ := List.mem_iff_getElem?.mp h
  rw [segments_ofTokens, Segment.getElem?_closeAll] at hAt
  obtain ⟨o, hOpen, hClosed⟩ := Option.map_eq_some_iff.mp hAt
  exact ⟨o, List.mem_reverse.mp (List.mem_of_getElem? hOpen), _, hClosed.symm⟩

/-- A segment starts where the command that opens it does. -/
theorem starts_segments :
    (ofTokens tokens footage).segments.map Segment.start =
      ((Command.inOrder (commands tokens)).filter Command.opens).map Command.start := by
  rw [segments_ofTokens, Segment.map_start_closeAll, Timeline.ofCommands,
    Timeline.starts_foldl_apply]
  rfl

/-- There are as many segments as commands that open one. -/
theorem length_segments :
    (ofTokens tokens footage).segments.length = (commands tokens).countP Command.opens := by
  rw [← List.length_map Segment.start, starts_segments, List.length_map,
    ← List.countP_eq_length_filter]
  exact (Command.perm_inOrder (commands tokens)).countP_eq _

/-- The warnings of a cut are those of its timeline, from the first to the last. -/
theorem warnings_ofTokens :
    (ofTokens tokens footage).report.warnings =
      (Timeline.ofCommands (commands tokens)).warnings.reverse := by
  simp [ofTokens, scan_eq, buildSegments, commands_eq, Timeline.ofCommands, Report.addWarnings,
    Report.addErrors, Report.empty]

/-- The errors of a cut are those about malformed windows and then those about payloads.
-/
theorem errors_ofTokens :
    (ofTokens tokens footage).report.errors =
      Token.malformed (Token.normalized tokens) ++
        (Token.windows (Token.normalized tokens)).filterMap Window.issue? := by
  simp [ofTokens, scan_eq, buildSegments, Report.addWarnings, Report.addErrors, Report.empty]

section SameCommands

variable {xs ys : List Token}

/-- Nothing but the commands of a transcript and the length of its footage tells what
its segments are. -/
theorem segments_eq_of_commands (h : commands xs = commands ys) :
    (ofTokens xs footage).segments = (ofTokens ys footage).segments := by
  rw [segments_ofTokens, segments_ofTokens, h]

/-- Nothing but the commands of a transcript tells what it is warned about. Neither the
length of its footage nor the words between windows matter. -/
theorem warnings_eq_of_commands (h : commands xs = commands ys) :
    (ofTokens xs footage).report.warnings = (ofTokens ys footage).report.warnings := by
  rw [warnings_ofTokens, warnings_ofTokens, h]

end SameCommands

end Cut

end RoughCut
