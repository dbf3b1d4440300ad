import RoughCut.Proofs.IdleCommands
import RoughCut.Proofs.SegmentClosing
import RoughCut.Proofs.Text.CleanEnds

/-!
A window more between two parts of a recording. A window whose command opens no
segment costs a warning or adds a tag; otherwise the cut is the one without it,
whatever time the window has.
-/

namespace RoughCut

/-- A word names a category in whatever case it is spoken. -/
theorem Category.ofWord?_of_sameLetters {word : String} {category : Category}
    (h : Text.sameLetters word category.word = true) : ofWord? word = some category := by
  rw [Text.sameLetters, beq_iff_eq] at h
  rw [ofWord?, h]
  cases category <;> decide

/-- A word that names a category is no cue. -/
theorem Token.isCue_of_sameLetters {t : Token} {category : Category}
    (h : Text.sameLetters t.text category.word = true) : t.isCue = false := by
  rw [Text.sameLetters, beq_iff_eq] at h
  rw [isCue, isSlate, isDone, Text.sameLetters, Text.sameLetters, h]
  cases category <;> decide

/-- A command without a number takes all words after the first one as its label. -/
theorem Window.command?_of_sameLetters (category : Category) {word : String}
    {words : List String} (hWord : Text.sameLetters word category.word = true)
    (hNumber : category.isNumbered = false)
    (hLabel : category = .apply → phrase words ≠ "") (start stop : Seconds) :
    command? ⟨word :: words, start, stop⟩ =
      some ⟨category.kind, start, stop, category, none, phrase words⟩ := by
  have hTag : ¬ (category = .apply ∧ (phrase words).isEmpty = true) := by
    rintro ⟨hApply, hEmpty⟩
    exact hLabel hApply (String.isEmpty_iff.mp hEmpty)
  rw [command?_eq_some_iff, Command.ofPayload, Category.ofWord?_of_sameLetters hWord]
  simp only [Command.splitNumber, hNumber, Bool.false_eq_true, if_false, bind, Except.bind,
    if_neg hTag]
  rfl

namespace Cut

/-- Where no window is open, a recognized window more is a command more. All other
commands stay as they are, before and after it. -/
theorem commands_insert {xs w : List Token} {window : Window} {c : Command}
    (hClosed : Token.AllClosed (Token.normalized xs))
    (hWindow : Token.IsWindow (Token.normalized w) window) (hCommand : window.command? = some c)
    (ys : List Token) :
    ∃ first last, commands (xs ++ ys) = first ++ last ∧
      commands (xs ++ w ++ ys) = first ++ c :: last := by
  refine ⟨commands xs, commands ys, commands_append hClosed ys, ?_⟩
  have hLater : commands (w ++ ys) = c :: commands ys := by
    rw [commands_eq, commands_eq, Token.normalized_append, hWindow.windows_append,
      List.filterMap_cons_some hCommand]
  rw [List.append_assoc, commands_append hClosed, hLater]

/-- A window that gives a command adds no error, since it leaves no slate open and is
recognized. -/
theorem errors_insert {xs w : List Token} {window : Window} {c : Command}
    (hClosed : Token.AllClosed (Token.normalized xs))
    (hWindow : Token.IsWindow (Token.normalized w) window) (hCommand : window.command? = some c)
    (ys : List Token) (footage : Seconds) :
    (ofTokens (xs ++ w ++ ys) footage).report.errors =
      (ofTokens (xs ++ ys) footage).report.errors := by
  have hIssue : window.issue? = none := Window.issue?_eq_none_iff.mpr (by rw [hCommand]; rfl)
  rw [errors_ofTokens, errors_ofTokens, List.append_assoc]
  simp only [Token.normalized_append, hClosed.malformed_append, hClosed.windows_append,
    hWindow.malformed_append, hWindow.windows_append, List.filterMap_append,
    List.filterMap_cons_none hIssue]

variable {xs ys : List Token} (footage : Seconds)

/-- Timelines that differ in one warning make cuts that differ in just this warning.
Segments are closed without a look at the report. -/
theorem ofTokens_of_warned {i : Issue}
    (h : Timeline.Warned i (.ofCommands (commands xs)) (.ofCommands (commands ys))) :
    (ofTokens ys footage).segments = (ofTokens xs footage).segments ∧
      i.Added (ofTokens xs footage).report.warnings (ofTokens ys footage).report.warnings := by
  obtain ⟨warnings, hAdded, hSame⟩ := h
  rw [segments_ofTokens, segments_ofTokens, warnings_ofTokens, warnings_ofTokens, hSame]
  exact ⟨rfl, hAdded.reverse⟩

/-- Timelines that differ in one tag of one segment make cuts that differ in just this
tag. -/
theorem ofTokens_of_tagged {tag : String}
    (h : Timeline.Tagged tag (.ofCommands (commands xs)) (.ofCommands (commands ys))) :
    (ofTokens ys footage).report.warnings = (ofTokens xs footage).report.warnings ∧
      ∃ k < (ofTokens xs footage).segments.length,
        (ofTokens ys footage).segments = (ofTokens xs footage).segments.modify k (.addTag tag) := by
  obtain ⟨later, s, earlier, hSegments, hSame⟩ := h
  rw [segments_ofTokens, segments_ofTokens, warnings_ofTokens, warnings_ofTokens, hSame]
  refine ⟨rfl, earlier.length, ?_, ?_⟩
  · rw [Segment.length_closeAll, hSegments]
    simp
  · have hPlace := List.modifyTailIdx_add (List.modifyHead (Segment.addTag tag)) 0 earlier.reverse
      (s :: later.reverse)
    rw [← Segment.closeAll_modify_addTag, hSegments]
    congr 1
    simpa [List.modify] using hPlace.symm

/-- A window whose command opens no segment is a warning more, or a tag more on
one of the segments. All else in the cut is as it was without the window. -/
theorem ofTokens_insert {xs w : List Token} {window : Window} {c : Command}
    (hClosed : Token.AllClosed (Token.normalized xs))
    (hWindow : Token.IsWindow (Token.normalized w) window) (hCommand : window.command? = some c)
    (hOpens : c.opens = false) (ys : List Token) (footage : Seconds) :
    let before := ofTokens (xs ++ ys) footage
    let after := ofTokens (xs ++ w ++ ys) footage
    after.report.errors = before.report.errors ∧
      ((∃ i opened, Timeline.warning? opened c = some i ∧ after.segments = before.segments ∧
          i.Added before.report.warnings after.report.warnings) ∨
        (c.isTag = true ∧ after.report.warnings = before.report.warnings ∧
          ∃ k < before.segments.length,
            after.segments = before.segments.modify k (.addTag c.label))) := by
  intro before after
  refine ⟨errors_insert hClosed hWindow hCommand ys footage, ?_⟩
  obtain ⟨first, last, hBefore, hAfter⟩ := commands_insert hClosed hWindow hCommand ys
  have hTimeline := Timeline.ofCommands_insert hOpens first last
  rw [← hBefore, ← hAfter] at hTimeline
  rcases hTimeline with ⟨i, opened, hWarning, hWarned⟩ | ⟨hTag, hTagged⟩
  · exact Or.inl ⟨i, opened, hWarning, ofTokens_of_warned footage hWarned⟩
  · exact Or.inr ⟨hTag, ofTokens_of_tagged footage hTagged⟩

/-- A window more that is an ending or applies a tag, where no window is open,
changes no error, and no segment but for the tag on one of them. It is a
warning more where it has no effect. -/
theorem insert_ending_or_tag {xs w words : List Token} {slate word done : Token}
    (hClosed : Token.AllClosed (Token.normalized xs))
    (hWindow : Token.normalized w = slate :: word :: (words ++ [done]))
    (hSlate : slate.isSlate = true) (hWords : ∀ t ∈ words, t.isCue = false)
    (hDone : done.isDone = true) (ys : List Token) (footage : Seconds) :
    let before := ofTokens (xs ++ ys) footage
    let after := ofTokens (xs ++ w ++ ys) footage
    (Text.sameLetters word.text "ending" = true →
      after.report.errors = before.report.errors ∧ after.segments = before.segments ∧
        ∃ i : Issue, i.kind = .deprecatedCommand ∧ i.start = slate.start ∧
          i.Added before.report.warnings after.report.warnings) ∧
      (Text.sameLetters word.text "apply" = true → words ≠ [] →
        after.report.errors = before.report.errors ∧
          ((after.report.warnings = before.report.warnings ∧
              ∃ k < before.segments.length, after.segments =
                before.segments.modify k (.addTag (phrase (words.map Token.text)))) ∨
            (after.segments = before.segments ∧
              ∃ i : Issue, i.kind = .orphanRetroactive ∧ i.start = slate.start ∧
                i.Added before.report.warnings after.report.warnings))) := by
  intro before after
  have hFound (category : Category) (hWord : Text.sameLetters word.text category.word = true) :
      Token.IsWindow (Token.normalized w)
        ⟨word.text :: words.map Token.text, slate.start, done.start⟩ := by
    rw [hWindow]
    exact .intro hSlate (List.forall_mem_cons.mpr ⟨Token.isCue_of_sameLetters hWord, hWords⟩) hDone
  constructor
  · intro hEnding
    have hCommand : Window.command? ⟨word.text :: words.map Token.text, slate.start, done.start⟩ =
        some ⟨.deprecatedEnding, _, _, .ending, none, _⟩ :=
      Window.command?_of_sameLetters .ending hEnding rfl nofun slate.start done.start
    obtain ⟨hErrors, hCases⟩ :=
      ofTokens_insert hClosed (hFound .ending hEnding) hCommand rfl ys footage
    refine ⟨hErrors, ?_⟩
    rcases hCases with ⟨i, opened, hWarning, hSegments, hAdded⟩ | ⟨hTag, _⟩
    · obtain rfl := Option.some.inj hWarning
      exact ⟨hSegments, _, rfl, rfl, hAdded⟩
    · cases hTag
  · intro hApply hSome
    have hLabel : phrase (words.map Token.text) ≠ "" := by
      refine phrase_ne_empty (by simpa using hSome) fun text hMem => ?_
      obtain ⟨t, hToken, rfl⟩ := List.mem_map.mp hMem
      have hNormal : t ∈ Token.normalized w := by
        rw [hWindow]
        simp [hToken]
      exact (Token.isNormal_of_mem_normalized hNormal).2
    have hCommand : Window.command? ⟨word.text :: words.map Token.text, slate.start, done.start⟩ =
        some ⟨.retroactive, _, _, .apply, none, _⟩ :=
      Window.command?_of_sameLetters .apply hApply rfl (fun _ => hLabel) slate.start done.start
    obtain ⟨hErrors, hCases⟩ :=
      ofTokens_insert hClosed (hFound .apply hApply) hCommand rfl ys footage
    refine ⟨hErrors, ?_⟩
    rcases hCases with ⟨i, opened, hWarning, hSegments, hAdded⟩ | ⟨_, hTagged⟩
    · cases opened with
      | true => cases hWarning
      | false =>
          obtain rfl := Option.some.inj hWarning
          exact Or.inr ⟨hSegments, _, rfl, rfl, hAdded⟩
    · exact Or.inl hTagged

/-- After a mark an ending changes no segment, and the label of an apply becomes a tag of
the mark. -/
theorem insert_ending_or_tag_between :
    let xs : List Token :=
      [⟨"slate", ⟨0x3FF0000000000000⟩⟩, ⟨"mark", ⟨0x3FF0000000000000⟩⟩,
        ⟨"done.", ⟨0x3FF0000000000000⟩⟩]
    let ys : List Token := [⟨"slate", ⟨0x4000000000000000⟩⟩]
    let ending : List Token :=
      [⟨"Slate,", ⟨0x4008000000000000⟩⟩, ⟨"Ending", ⟨0x4008000000000000⟩⟩,
        ⟨"done", ⟨0x4008000000000000⟩⟩]
    let tag : List Token :=
      [⟨"slate", ⟨0x4008000000000000⟩⟩, ⟨"apply", ⟨0x4008000000000000⟩⟩,
        ⟨"wide!", ⟨0x4008000000000000⟩⟩, ⟨"done", ⟨0x4008000000000000⟩⟩]
    let footage : Seconds := ⟨0x4010000000000000⟩
    let before := ofTokens (xs ++ ys) footage
    let applied := ofTokens (xs ++ tag ++ ys) footage
    before.segments.length = 1 ∧
      (ofTokens (xs ++ ending ++ ys) footage).segments = before.segments ∧
      applied.report.warnings = before.report.warnings ∧
      applied.segments = before.segments.modify 0 (.addTag "wide") := by
  intro xs ys ending tag footage before applied
  have hClosed : Token.AllClosed (Token.normalized xs) := by decide +kernel
  have hEnding : Token.normalized ending = _ :: _ :: ([] ++ [_]) := rfl
  have hTag : Token.normalized tag = _ :: _ :: ([_] ++ [_]) := rfl
  have hLength : before.segments.length = 1 := by
    rw [length_segments]
    decide +kernel
  have hWarnings : applied.report.warnings = [] := by
    have hOrdered : Command.Ordered (commands (xs ++ tag ++ ys)) := by decide +kernel
    rw [warnings_ofTokens, Timeline.ofCommands, hOrdered.inOrder_eq]
    decide +kernel
  obtain ⟨hIdle, _⟩ := insert_ending_or_tag hClosed hEnding rfl nofun rfl ys footage
  obtain ⟨_, hApplied⟩ := insert_ending_or_tag hClosed hTag rfl (by decide) rfl ys footage
  refine ⟨hLength, (hIdle rfl).2.1, ?_⟩
  rcases (hApplied rfl nofun).2 with ⟨hSame, k, hPlace, hTagged⟩ | ⟨_, i, _, _, _, _, _, hMore⟩
  · have hFirst : k < 1 := hLength ▸ hPlace
    obtain rfl := Nat.lt_one_iff.mp hFirst
    exact ⟨hSame, hTagged⟩
  · -- the mark is there to be tagged, so the apply has its effect
    exact absurd (hMore.symm.trans hWarnings) (by simp)

end Cut

end RoughCut
