import RoughCut.Proofs.CutStages
import RoughCut.Proofs.Tags

/-!
Where the words of a cut come from. A segment is named by the window that opens
it, and its tags are what was said in other windows. The words are taken over
as they were said; of the first one of a window only its meaning is kept.
-/

namespace RoughCut

/-- What a window may call the segment that it opens: what was said after the
number, or the word of the category and what was said after it, if anything. -/
inductive Window.Names (w : Window) : String → Prop where
  | numbered {word number : String} {said : List String}
      (hPayload : w.payload = word :: number :: said) : Names w (phrase said)
  | bare {word : String} {said : List String} {category : Category}
      (hPayload : w.payload = word :: said) (hWord : Category.ofWord? word = some category)
      (hSilent : phrase said = "") : Names w category.word
  | titled {word : String} {said : List String} {category : Category}
      (hPayload : w.payload = word :: said) (hWord : Category.ofWord? word = some category) :
      Names w (category.word ++ ": " ++ phrase said)

/-- The label of the segment was said in a window that starts with it, and each
of its tags was said in some window. -/
structure Segment.AsSpoken (windows : List Window) (s : Segment) : Prop where
  label : ∃ w ∈ windows, w.start = s.start ∧ w.Names s.label
  tags : ∀ tag ∈ s.tags.toList, ∃ w ∈ windows, ∃ word said,
    w.payload = word :: said ∧ tag = phrase said

/-- A number is one word, and the words after it are left. -/
theorem Command.of_splitNumber {category : Category} {rest said : List String}
    {number : Option UInt32} (h : splitNumber category rest = .ok (number, said)) :
    if category.isNumbered then
      ∃ word n, rest = word :: said ∧ Numeral.ofWord? word = some n ∧ number = some n
    else rest = said ∧ number = none := by
  unfold splitNumber at h
  split at h
  · next hNumbered =>
    rw [if_pos hNumbered]
    split at h
    · cases h
    · next word words =>
      split at h
      · cases h
      · next n hNumber =>
        cases h
        exact ⟨word, n, rfl, hNumber, rfl⟩
  · next hNumbered =>
    rw [if_neg hNumbered]
    cases h
    exact ⟨rfl, rfl⟩

namespace Window

variable {w : Window} {c : Command}

/-- A segment is called after what was said in the window that opens it, or after its
category where nothing more was said. -/
theorem names_of_command? (h : w.command? = some c) (hOpens : c.opens = true) :
    w.Names c.title := by
  obtain ⟨word, rest, category, number, said, hPayload, hWord, hSplit, -, rfl⟩ :=
    Command.ofPayload_eq_ok_iff.mp (command?_eq_some_iff.mp h)
  have hNumber := Command.of_splitNumber hSplit
  have hStandalone (hSaid : rest = said) :
      w.Names (if phrase said = "" then category.word
        else category.word ++ ": " ++ phrase said) := by
    subst hSaid
    split
    · next hSilent => exact .bare hPayload hWord hSilent
    · exact .titled hPayload hWord
  cases category with
  | scene | step =>
      obtain ⟨number, -, rfl, -⟩ := hNumber
      exact .numbered hPayload
  | mark | effect =>
      simpa [Command.title, Timeline.standaloneLabel, Category.kind] using hStandalone hNumber.1
  | apply | ending => simp [Command.opens, Category.kind] at hOpens

/-- The label of a tag is what was said behind the word for it, as it was said. -/
theorem label_of_command? (h : w.command? = some c) (hTag : c.isTag = true) :
    ∃ word said, w.payload = word :: said ∧ c.label = phrase said := by
  obtain ⟨word, rest, category, number, said, hPayload, -, hSplit, -, rfl⟩ :=
    Command.ofPayload_eq_ok_iff.mp (command?_eq_some_iff.mp h)
  have hNumber := Command.of_splitNumber hSplit
  cases category with
  | apply => exact ⟨word, rest, hPayload, congrArg phrase hNumber.1.symm⟩
  | scene | step | mark | effect | ending => simp [Command.isTag, Category.kind] at hTag

end Window

namespace Timeline

variable {windows : List Window}

/-- A command of a window leaves the words of all segments as they were spoken. -/
theorem asSpoken_apply {t : Timeline} (h : ∀ s ∈ t.segments, s.AsSpoken windows)
    {w : Window} (hWindow : w ∈ windows) {c : Command} (hCommand : w.command? = some c) :
    ∀ s ∈ (t.apply c).segments, s.AsSpoken windows := by
  rcases opens_or_isTag_or_deprecated c with hOpens | hTag | hDeprecated
  · rw [apply_of_opens hOpens, openSegment_segments, enter_segments]
    have hStart := (Command.of_ofPayload (Window.command?_eq_some_iff.mp hCommand)).1
    refine List.forall_mem_cons.mpr ⟨⟨⟨w, hWindow, hStart.symm, ?_⟩, ?_⟩, h⟩
    · exact Window.names_of_command? hCommand hOpens
    · exact fun tag hMem => absurd hMem List.not_mem_nil
  · cases hSegments : t.segments with
    | nil => simp [apply_orphan hTag hSegments, hSegments]
    | cons s ss =>
        rw [hSegments] at h
        obtain ⟨hLast, hEarlier⟩ := List.forall_mem_cons.mp h
        rw [apply_tag hTag hSegments]
        refine List.forall_mem_cons.mpr ⟨⟨hLast.label, fun tag hMem => ?_⟩, hEarlier⟩
        rcases Tags.mem_insert.mp hMem with rfl | hMem
        · exact ⟨w, hWindow, Window.label_of_command? hCommand hTag⟩
        · exact hLast.tags tag hMem
  · rw [apply_deprecated hDeprecated]
    exact h

/-- Commands of windows leave the words of all segments as they were spoken, however
many they are. -/
theorem asSpoken_foldl_apply {commands : List Command}
    (hCommands : ∀ c ∈ commands, ∃ w ∈ windows, w.command? = some c) {t : Timeline}
    (h : ∀ s ∈ t.segments, s.AsSpoken windows) :
    ∀ s ∈ (commands.foldl apply t).segments, s.AsSpoken windows := by
  induction commands generalizing t with
  | nil => exact h
  | cons c commands ih =>
      obtain ⟨⟨w, hWindow, hCommand⟩, hRest⟩ := List.forall_mem_cons.mp hCommands
      exact ih hRest (asSpoken_apply h hWindow hCommand)

end Timeline

/-- Every segment of a cut is called what the speaker said. -/
theorem Cut.asSpoken_of_mem_segments {tokens : List Token} {footage : Seconds} {s : Segment}
    (h : s ∈ (ofTokens tokens footage).segments) :
    s.AsSpoken (Token.windows (Token.normalized tokens)) := by
  have hCommands : ∀ c ∈ Command.inOrder (commands tokens),
      ∃ w ∈ Token.windows (Token.normalized tokens), w.command? = some c := by
    intro c hMem
    rw [(Command.perm_inOrder _).mem_iff, commands_eq] at hMem
    exact List.mem_filterMap.mp hMem
  obtain ⟨o, hMem, next, rfl⟩ := exists_open_of_mem_segments h
  have hSpoken := Timeline.asSpoken_foldl_apply hCommands (t := Timeline.initial)
    (fun _ hNone => absurd hNone List.not_mem_nil) o hMem
  exact ⟨hSpoken.label, hSpoken.tags⟩

end RoughCut
