import Mathlib.Algebra.Group.Nat.Defs
import RoughCut.Proofs.Extension
import RoughCut.Proofs.InsertedWindow
import RoughCut.Proofs.Spelling
import RoughCut.Proofs.SpokenNumbers

/-!
Numbers with a minus in front of them. The minus is punctuation, so it is gone
before a word is read as a number: a scene or step with such a number is the
one with its digits alone, and is refused only where these are no number.
-/

namespace RoughCut

/-! ### Words of digits -/

theorem Token.isCue_of_digits {t : Token} (hDigits : ∀ d ∈ t.text.toList, d.isDigit = true) :
    t.isCue = false := by
  have hOther {cue : String} (hCue : (Text.lower cue).toList.all Char.isDigit = false) :
      Text.sameLetters t.text cue = false := by
    rw [Text.sameLetters, Text.lower_digits hDigits, beq_eq_false_iff_ne]
    intro hSame
    rw [← hSame, List.all_eq_true.mpr hDigits] at hCue
    cases hCue
  rw [isCue, isSlate, isDone, hOther (by decide), hOther (by decide)]
  rfl

/-! ### One window between others -/

/-- A slate makes no window of what is open before it. -/
theorem OpenWindow.getLeft?_outcome_slate (w : OpenWindow) {slate : Token}
    (hSlate : slate.isSlate = true) (xs ts : List Token) :
    (w.outcome (xs ++ slate :: ts)).getLeft? = (w.outcome xs).getLeft? := by
  by_cases hCue : ∃ c ∈ xs, c.isCue = true
  · rw [outcome_append w hCue]
  · have hWords : ∀ t ∈ xs, t.isCue = false := fun t hMem =>
      Bool.eq_false_iff.mpr fun h => hCue ⟨t, hMem, h⟩
    have hEnd := outcome_words w [] hWords
    rw [List.append_nil] at hEnd
    rw [outcome_words w _ hWords, hEnd, outcome_slate _ _ hSlate, outcome_nil]
    rfl

/-- The windows before a slate are found apart from those after it. -/
theorem Token.windows_slate {slate : Token} (hSlate : slate.isSlate = true) (xs ts : List Token) :
    windows (xs ++ slate :: ts) = windows xs ++ windows (slate :: ts) := by
  induction xs with
  | nil => rfl
  | cons t xs ih =>
      cases hOpens : t.isSlate with
      | false => simpa [windows, outcomes, hOpens] using ih
      | true =>
          have hHere := OpenWindow.getLeft?_outcome_slate ⟨t.start, []⟩ hSlate xs ts
          simp only [windows] at ih
          simp only [windows, List.cons_append, outcomes_slate hOpens, List.filterMap_cons, hHere,
            ih]
          split <;> rfl

/-- A window between other tokens is found between the windows of these, if the tokens
before it leave none open. -/
theorem Token.IsWindow.windows_between {tokens : List Token} {w : Window}
    (h : IsWindow tokens w) (xs ys : List Token) :
    windows (xs ++ (tokens ++ ys)) = windows xs ++ w :: windows ys := by
  rw [← h.windows_append]
  obtain ⟨hSlate, _, _⟩ := h
  exact windows_slate hSlate xs _

namespace Cut

/-- The errors of windows that are no commands. -/
def unrecognized (cut : Cut) : List Issue :=
  cut.report.errors.filter fun i => decide (i.kind = .unrecognizedCommand)

/-- The commands that were not recognized are reported in the order of their windows. -/
theorem unrecognized_ofTokens (tokens : List Token) (footage : Seconds) :
    (ofTokens tokens footage).unrecognized =
      (Token.windows (Token.normalized tokens)).filterMap Window.issue? := by
  have hMalformed : ∀ i ∈ Token.malformed (Token.normalized tokens),
      decide (i.kind = .unrecognizedCommand) = false := by
    intro i hMem
    rw [Token.kind_of_mem_malformed hMem]
    rfl
  have hIssues : ∀ i ∈ (Token.windows (Token.normalized tokens)).filterMap Window.issue?,
      decide (i.kind = .unrecognizedCommand) = true := by
    intro i hMem
    obtain ⟨w, _, hIssue⟩ := List.mem_filterMap.mp hMem
    rcases w.command?_or_issue? with ⟨c, _, hNone, _⟩ | ⟨j, hSome, _, _, hKind⟩
    · rw [hNone] at hIssue
      cases hIssue
    · rw [hSome, Option.some.injEq] at hIssue
      rw [← hIssue, hKind]
      rfl
  rw [unrecognized, errors_ofTokens, List.filter_append, List.filter_eq_self.mpr hIssues,
    List.filter_eq_nil_iff.mpr fun i hMem => by simp [hMalformed i hMem], List.nil_append]

section Between

variable {tokens : List Token} {w : Window} (h : Token.IsWindow (Token.normalized tokens) w)
  (xs ys : List Token)

include h

/-- A window between other tokens adds the command that it gives, if it gives one,
between theirs. -/
theorem commands_between :
    commands (xs ++ (tokens ++ ys)) = commands xs ++ (w.command?.toList ++ commands ys) := by
  simp only [commands_eq, Token.normalized_append, h.windows_between, List.filterMap_append,
    List.filterMap_cons]
  cases w.command? <;> rfl

/-- A window between other tokens adds the issue that it gives, if it gives one, between
theirs. -/
theorem unrecognized_between (footage : Seconds) :
    (ofTokens (xs ++ (tokens ++ ys)) footage).unrecognized =
      (ofTokens xs footage).unrecognized ++
        (w.issue?.toList ++ (ofTokens ys footage).unrecognized) := by
  simp only [unrecognized_ofTokens, Token.normalized_append, h.windows_between,
    List.filterMap_append, List.filterMap_cons]
  cases w.issue? <;> rfl

end Between

/-- A command that opens a segment is seen in it. -/
theorem exists_segment_of_mem_commands {tokens : List Token} {c : Command}
    (hMem : c ∈ commands tokens) (hOpens : c.opens = true) (footage : Seconds) :
    ∃ s ∈ (ofTokens tokens footage).segments, s.start = c.start ∧ s.label = c.title ∧
      (c.kind = .start → (if c.category = .scene then s.scene else s.step) = c.number) := by
  obtain ⟨first, last, hOrder⟩ :=
    List.append_of_mem ((Command.perm_inOrder (commands tokens)).mem_iff.mpr hMem)
  let before := first.foldl Timeline.apply Timeline.initial
  have hOpened : (before.apply c).segments =
      ⟨(before.enter c).nextIndex, c.start, c.start, (before.enter c).scene,
        (before.enter c).step, c.title, .empty⟩ :: before.segments := by
    rw [Timeline.apply_of_opens hOpens, Timeline.openSegment_segments, Timeline.enter_segments]
  obtain ⟨later, s, hSegments, hContinues⟩ :=
    ((Timeline.Extends.refl _).foldl_apply last).segments _ _ hOpened
  have hTimeline : (Timeline.ofCommands (commands tokens)).segments =
      later ++ s :: before.segments := by
    rw [Timeline.ofCommands, hOrder, List.foldl_append, List.foldl_cons, hSegments]
  obtain ⟨i, hAt⟩ : ∃ i, (Timeline.ofCommands (commands tokens)).segments.reverse[i]? = some s :=
    List.mem_iff_getElem?.mp (by simp [hTimeline])
  have hClosed := Segment.getElem?_closeAll footage
    (Timeline.ofCommands (commands tokens)).segments.reverse i
  rw [hAt, Option.map_some, ← segments_ofTokens] at hClosed
  refine ⟨_, List.mem_of_getElem? hClosed, hContinues.start, hContinues.label, fun hStart => ?_⟩
  simp only [Segment.close, hContinues.scene, hContinues.step, Timeline.enter, if_pos hStart]
  split <;> rfl

end Cut

/-! ### Scenes and steps with digits -/

/-- The tokens say a scene or step by its digits, with anything around them and
around the words that is no part of a word. -/
structure Token.SaysNumber (category : Category) (digits : String)
    (slate word number : Token) (words : List Token) (done : Token) : Prop where
  isNumbered : category.isNumbered = true
  isDigit : ∀ d ∈ digits.toList, d.isDigit = true
  someDigit : digits ≠ ""
  opens : ∃ t, slate.normal? = some t ∧ t.isSlate = true
  names : Text.sameLetters (Text.normalize word.text) category.word = true
  reads : Text.normalize number.text = digits
  noCue : ∀ t ∈ normalized words, t.isCue = false
  closes : ∃ t, done.normal? = some t ∧ t.isDone = true

namespace Token.SaysNumber

variable {category : Category} {digits : String} {slate word number done : Token}
  {words : List Token} (h : SaysNumber category digits slate word number words done)

include h

/-- A slate, a category, a number with a minus and some words up to the end are a
window, in which the minus is gone. -/
theorem isWindow :
    IsWindow (normalized (slate :: word :: number :: (words ++ [done])))
      ⟨Text.normalize word.text :: digits :: (normalized words).map text, slate.start,
        done.start⟩ := by
  obtain ⟨opening, hOpening, hSlate⟩ := h.opens
  obtain ⟨closing, hClosing, hDone⟩ := h.closes
  have hWordText : Text.normalize word.text ≠ "" := by
    intro hNone
    have hNames := h.names
    rw [hNone] at hNames
    revert hNames
    cases category <;> decide
  have hWord := normal?_eq_some_iff.mpr ⟨hWordText, rfl⟩
  have hNumber := normal?_eq_some_iff.mpr ⟨h.reads ▸ h.someDigit, rfl⟩
  rw [h.reads] at hNumber
  have hTokens : normalized (slate :: word :: number :: (words ++ [done])) =
      opening :: (⟨Text.normalize word.text, word.start⟩ :: ⟨digits, number.start⟩ ::
        normalized words ++ [closing]) := by
    simp only [normalized, List.filterMap_cons, List.filterMap_append, hOpening, hWord, hNumber,
      hClosing, List.filterMap_nil, List.cons_append]
  have hSpeech : ∀ t ∈ (⟨Text.normalize word.text, word.start⟩ :: ⟨digits, number.start⟩ ::
      normalized words : List Token), t.isCue = false :=
    List.forall_mem_cons.mpr ⟨isCue_of_sameLetters h.names,
      List.forall_mem_cons.mpr ⟨isCue_of_digits h.isDigit, h.noCue⟩⟩
  have hStart := (normal?_eq_some_iff.mp hOpening).2
  have hStop := (normal?_eq_some_iff.mp hClosing).2
  rw [hTokens]
  have hWindow := IsWindow.intro hSlate hSpeech hDone
  rw [hStart, hStop] at hWindow ⊢
  exact hWindow

/-- Digits are refused only where they are no number of thirty-two bits from one on. -/
theorem ofPayload_eq (said : List String) (start stop : Seconds) :
    Command.ofPayload (Text.normalize word.text :: digits :: said) start stop =
      match Numeral.ofNat? (Nat.ofDigitChars 10 digits.toList 0) with
      | some n => .ok ⟨.start, start, stop, category, some n, phrase said⟩
      | none => .error .invalidNumber := by
  have hNames := Category.ofWord?_of_sameLetters h.names
  have hKind : category.kind = .start ∧ category ≠ .apply := by
    have hNumbered := h.isNumbered
    cases category <;> simp_all [Category.isNumbered, Category.kind]
  simp only [Command.ofPayload, hNames, Command.splitNumber, h.isNumbered, if_true,
    Numeral.ofWord?_digits h.isDigit, bind, Except.bind]
  cases Numeral.ofNat? (Nat.ofDigitChars 10 digits.toList 0) with
  | none => rfl
  | some n =>
      simp only [hKind, false_and, if_false]
      rfl

end Token.SaysNumber

namespace Cut

variable {category : Category} {digits : String} {slate word number done : Token}
  {words : List Token}

/-- A scene or step with a number of its own is one segment more. -/
theorem of_number (h : Token.SaysNumber category digits slate word number words done)
    {n : UInt32} (hNumber : Numeral.ofNat? (Nat.ofDigitChars 10 digits.toList 0) = some n)
    (xs ys : List Token) (footage : Seconds) :
    let cut := ofTokens (xs ++ (slate :: word :: number :: (words ++ [done]) ++ ys)) footage
    let before := ofTokens xs footage
    let after := ofTokens ys footage
    cut.unrecognized = before.unrecognized ++ after.unrecognized ∧
      cut.segments.length = before.segments.length + 1 + after.segments.length ∧
      ∃ s ∈ cut.segments, s.start = slate.start ∧
        (if category = .scene then s.scene else s.step) = some n := by
  intro cut before after
  have hWindow := h.isWindow
  generalize (Token.normalized words).map Token.text = said at hWindow
  let c : Command := ⟨.start, slate.start, done.start, category, some n, phrase said⟩
  have hCommand : Window.command? ⟨Text.normalize word.text :: digits :: said, slate.start,
      done.start⟩ = some c := by
    rw [Window.command?, Window.classify, h.ofPayload_eq, hNumber]
    rfl
  have hIssue := Window.issue?_eq_none_iff.mpr (congrArg Option.isSome hCommand)
  have hCommands := commands_between hWindow xs ys
  have hUnrecognized := unrecognized_between hWindow xs ys footage
  rw [hCommand] at hCommands
  rw [hIssue] at hUnrecognized
  have hMem : c ∈ commands (xs ++ (slate :: word :: number :: (words ++ [done]) ++ ys)) := by
    rw [hCommands]
    simp
  obtain ⟨s, hSegment, hStart, -, hPlace⟩ := exists_segment_of_mem_commands hMem rfl footage
  refine ⟨hUnrecognized, ?_, s, hSegment, hStart, hPlace rfl⟩
  simp only [cut, before, after, length_segments, hCommands, List.countP_append]
  rw [Nat.add_assoc]
  rfl

/-- A scene or step without a number is one error more. -/
theorem of_no_number (h : Token.SaysNumber category digits slate word number words done)
    (hNumber : Numeral.ofNat? (Nat.ofDigitChars 10 digits.toList 0) = none)
    (xs ys : List Token) (footage : Seconds) :
    let cut := ofTokens (xs ++ (slate :: word :: number :: (words ++ [done]) ++ ys)) footage
    let before := ofTokens xs footage
    let after := ofTokens ys footage
    (∃ i, cut.unrecognized = before.unrecognized ++ i :: after.unrecognized ∧
      i.start = slate.start) ∧
      cut.segments.length = before.segments.length + after.segments.length := by
  intro cut before after
  have hWindow := h.isWindow
  generalize (Token.normalized words).map Token.text = said at hWindow
  have hNone : Window.command? ⟨Text.normalize word.text :: digits :: said, slate.start,
      done.start⟩ = none := by
    rw [Window.command?, Window.classify, h.ofPayload_eq, hNumber]
    rfl
  have hCommands := commands_between hWindow xs ys
  have hUnrecognized := unrecognized_between hWindow xs ys footage
  rw [hNone, Option.toList_none, List.nil_append] at hCommands
  rcases Window.command?_or_issue? _ with ⟨c, hSome, _⟩ | ⟨i, hIssue, _, hStart, _⟩
  · rw [hNone] at hSome
    cases hSome
  · rw [hIssue] at hUnrecognized
    refine ⟨⟨i, hUnrecognized, hStart⟩, ?_⟩
    simp only [cut, before, after, length_segments, hCommands, List.countP_append]

/-- A minus in front of the digits of a scene or step is not heard. The cut is the
one with the digits alone: one segment more, in the scene or step of that number,
or one error more where the digits are no number that a scene or step can have. -/
theorem ofTokens_minus {time : Seconds}
    (h : Token.SaysNumber category digits slate word ⟨digits, time⟩ words done)
    (xs ys : List Token) (footage : Seconds) :
    let said (number : String) :=
      xs ++ (slate :: word :: ⟨number, time⟩ :: (words ++ [done]) ++ ys)
    let cut := ofTokens (said ("-" ++ digits)) footage
    let before := ofTokens xs footage
    let after := ofTokens ys footage
    let n := Nat.ofDigitChars 10 digits.toList 0
    cut = ofTokens (said digits) footage ∧
      (0 < n ∧ n < 2 ^ 32 →
        cut.unrecognized = before.unrecognized ++ after.unrecognized ∧
          cut.segments.length = before.segments.length + 1 + after.segments.length ∧
          ∃ s ∈ cut.segments, s.start = slate.start ∧
            (if category = .scene then s.scene else s.step) = some (UInt32.ofNat n)) ∧
      (¬(0 < n ∧ n < 2 ^ 32) →
        (∃ i, cut.unrecognized = before.unrecognized ++ i :: after.unrecognized ∧
          i.start = slate.start) ∧
          cut.segments.length = before.segments.length + after.segments.length) := by
  intro said cut before after n
  have hMinus : Token.SaysNumber category digits slate word ⟨"-" ++ digits, time⟩ words done :=
    { h with reads := Text.normalize_minus_digits h.isDigit }
  have hSame : Token.normalized (said ("-" ++ digits)) = Token.normalized (said digits) := by
    have hNumber : Token.normal? ⟨"-" ++ digits, time⟩ = Token.normal? ⟨digits, time⟩ := by
      rw [Token.normal?, Token.normal?, hMinus.reads, h.reads]
    simp only [said, Token.normalized, List.cons_append, List.filterMap_append,
      List.filterMap_cons, hNumber]
  have hValue : Numeral.ofNat? n = if 0 < n ∧ n < 2 ^ 32 then some (UInt32.ofNat n) else none := by
    rw [Numeral.ofNat?, Nat.pow_eq]
  refine ⟨ofTokens_eq_of_normalized hSame footage, fun hNumber => ?_, fun hNumber => ?_⟩
  · rw [if_pos hNumber] at hValue
    exact of_number hMinus hValue xs ys footage
  · rw [if_neg hNumber] at hValue
    exact of_no_number hMinus hValue xs ys footage

/-- Zero with a minus is no number of a step, as zero is none. The slate before it is
left open and changes nothing about that. -/
theorem ofTokens_minus_zero :
    let slate : Token := ⟨" Slate,", ⟨0x3FF0000000000000⟩⟩
    let step : Token := ⟨"STEP", Seconds.zero⟩
    let speech : List Token := [⟨"--", Seconds.zero⟩, ⟨"sand", Seconds.zero⟩]
    let done : Token := ⟨"done.", ⟨0x4000000000000000⟩⟩
    let opened : List Token := [⟨"slate", Seconds.zero⟩, ⟨"mark", Seconds.zero⟩]
    let cut := ofTokens (opened ++
      (slate :: step :: ⟨"-00", Seconds.zero⟩ :: (speech ++ [done]) ++ [])) Seconds.zero
    Token.SaysNumber .step "00" slate step ⟨"00", Seconds.zero⟩ speech done ∧
      (∃ i, cut.unrecognized = [i] ∧ i.start = slate.start) ∧ cut.segments.length = 0 := by
  intro slate step speech done opened cut
  have hSaid : Token.SaysNumber .step "00" slate step ⟨"00", Seconds.zero⟩ speech done :=
    { isNumbered := rfl
      isDigit := List.all_eq_true.mp (by decide +kernel)
      someDigit := by decide
      opens := ⟨⟨"Slate", slate.start⟩, by decide +kernel, by decide +kernel⟩
      names := by decide +kernel
      reads := by decide +kernel
      noCue := by decide +kernel
      closes := ⟨⟨"done", done.start⟩, by decide +kernel, by decide +kernel⟩ }
  have hBefore : (ofTokens opened Seconds.zero).unrecognized = [] ∧
      (ofTokens opened Seconds.zero).segments.length = 0 := by
    rw [unrecognized_ofTokens, length_segments]
    decide +kernel
  obtain ⟨-, -, hZero⟩ := ofTokens_minus hSaid opened [] Seconds.zero
  obtain ⟨⟨i, hUnrecognized, hStart⟩, hLength⟩ := hZero (by decide +kernel)
  have hAfter : (ofTokens [] Seconds.zero).segments.length = 0 := length_segments [] _
  rw [hBefore.1] at hUnrecognized
  rw [hBefore.2, hAfter] at hLength
  exact ⟨hSaid, ⟨i, hUnrecognized, hStart⟩, hLength⟩

/-- A scene with the number minus two is not refused. It is the scene two. -/
theorem minus_two_accepted :
    let tokens : List Token :=
      [⟨"slate", ⟨0x3FF0000000000000⟩⟩, ⟨"scene", ⟨0x3FF8000000000000⟩⟩,
        ⟨"-2", ⟨0x4000000000000000⟩⟩, ⟨"done", ⟨0x4008000000000000⟩⟩]
    (ofTokens tokens ⟨0x4024000000000000⟩).report.errors = [] ∧
      (ofTokens tokens ⟨0x4024000000000000⟩).segments.length = 1 := by
  intro tokens
  rw [errors_ofTokens, length_segments]
  decide +kernel

end Cut

end RoughCut
