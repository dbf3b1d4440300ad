import RoughCut.Proofs.SpokenWords
import RoughCut.Proofs.Text.SmallLetters

/-!
The case of letters. Every stage of a cut does the same with words in small
letters as with the words themselves, and what it makes of them are the same
things in small letters. So the case in which something is said is seen in
labels, tags and messages, and nowhere else.
-/

namespace RoughCut

/-- The token with its word in small letters. -/
def Token.lower (t : Token) : Token :=
  { t with text := Text.lower t.text }

def OpenWindow.lower (o : OpenWindow) : OpenWindow :=
  { o with payload := o.payload.map Text.lower }

def Window.lower (w : Window) : Window :=
  { w with payload := w.payload.map Text.lower }

def Command.lower (c : Command) : Command :=
  { c with label := Text.lower c.label }

def Issue.lower (i : Issue) : Issue :=
  { i with detail := Text.lower i.detail }

def Report.lower (r : Report) : Report :=
  ⟨r.errors.map Issue.lower, r.warnings.map Issue.lower⟩

/-- The set of the tags in small letters, of which there may be fewer. -/
def Tags.lower (tags : Tags) : Tags :=
  Tags.ofList (tags.toList.map Text.lower)

def Segment.lower (s : Segment) : Segment :=
  { s with label := Text.lower s.label, tags := s.tags.lower }

def Timeline.lower (t : Timeline) : Timeline :=
  { t with segments := t.segments.map Segment.lower, warnings := t.warnings.map Issue.lower }

/-- The cut with all that was said in small letters. -/
def Cut.lower (c : Cut) : Cut :=
  ⟨c.segments.map Segment.lower, c.report.lower⟩

namespace Tags

/-- The tags in small letters are just the small letters of the tags, though two tags
may become one. -/
theorem mem_lower {tags : Tags} {x : String} :
    x ∈ tags.lower.toList ↔ ∃ tag ∈ tags.toList, Text.lower tag = x := by
  rw [lower, mem_ofList, List.mem_map]

/-- A tag may be put in before or after all is said in small letters. Tags that differ
in case alone are one tag then, whichever came first. -/
theorem insert_lower (tags : Tags) (tag : String) :
    tags.lower.insert (Text.lower tag) = (tags.insert tag).lower := by
  refine eq_of_mem_iff fun x => ?_
  simp only [mem_insert, mem_lower, exists_eq_or_imp]
  exact or_congr_left eq_comm

end Tags

/-! ### Tokens -/

namespace Token

/-- The slate that opens a window is known by its small letters, so its case does not
count. -/
theorem isSlate_lower (t : Token) : t.lower.isSlate = t.isSlate :=
  Text.sameLetters_lower t.text "slate"

/-- The word that closes a window is known by its small letters as well. -/
theorem isDone_lower (t : Token) : t.lower.isDone = t.isDone :=
  Text.sameLetters_lower t.text "done"

theorem isCue_lower (t : Token) : t.lower.isCue = t.isCue := by
  rw [isCue, isSlate_lower, isDone_lower, isCue]

/-- The normal form of a word is made of whole characters that stay or go for what they
are, whatever their case. -/
theorem normal?_lower (t : Token) : t.lower.normal? = t.normal?.map lower := by
  simp only [normal?, lower, Text.normalize_lower, Text.isEmpty_lower]
  split <;> rfl

theorem normalized_lower (ts : List Token) :
    normalized (ts.map lower) = (normalized ts).map lower := by
  rw [normalized, normalized, List.filterMap_map, List.map_filterMap]
  refine List.filterMap_congr fun t _ => ?_
  rw [Function.comp_apply, normal?_lower]

end Token

/-! ### Windows -/

/-- An issue with a slate names times only, so it does not change. -/
theorem OpenWindow.outcome_lower (o : OpenWindow) (ts : List Token) :
    o.lower.outcome (ts.map Token.lower) = (o.outcome ts).map Window.lower id := by
  induction ts generalizing o with
  | nil => rfl
  | cons t ts ih =>
      rw [List.map_cons]
      rcases t.slate_or_done_or_word with hSlate | hDone | hWord
      · rw [outcome_slate o ts hSlate, outcome_slate _ _ (t.isSlate_lower.trans hSlate)]
        rfl
      · rw [outcome_done o ts hDone, outcome_done _ _ (t.isDone_lower.trans hDone)]
        simp [OpenWindow.lower, Window.lower, Token.lower]
      · rw [outcome_word o ts hWord, outcome_word _ _ (t.isCue_lower.trans hWord), ← ih]
        rfl

namespace Token

/-- A scan of words in small letters finds the same windows and the same slates without
an end, with the words of the windows in small letters. -/
theorem outcomes_lower (ts : List Token) :
    outcomes (ts.map lower) = (outcomes ts).map (Sum.map Window.lower id) := by
  induction ts with
  | nil => rfl
  | cons t ts ih =>
      rw [List.map_cons]
      cases hSlate : t.isSlate with
      | false => simpa [outcomes, isSlate_lower, hSlate] using ih
      | true =>
          rw [outcomes_slate hSlate, outcomes_slate (t.isSlate_lower.trans hSlate), ih,
            List.map_cons, ← OpenWindow.outcome_lower]
          rfl

theorem windows_lower (ts : List Token) :
    windows (ts.map lower) = (windows ts).map Window.lower := by
  rw [windows, windows, outcomes_lower, List.filterMap_map, List.map_filterMap]
  refine List.filterMap_congr fun o _ => ?_
  cases o <;> rfl

/-- An issue about a slate without an end tells its time and nothing that was said, so
it is the very same. -/
theorem malformed_lower (ts : List Token) : malformed (ts.map lower) = malformed ts := by
  rw [malformed, malformed, outcomes_lower, List.filterMap_map]
  refine List.filterMap_congr fun o _ => ?_
  cases o <;> rfl

end Token

/-! ### Commands -/

/-- A category is looked up by the small letters of its word. -/
theorem Category.ofWord?_lower (w : String) : ofWord? (Text.lower w) = ofWord? w := by
  rw [ofWord?, Text.lower_lower, ofWord?]

/-- A number is read from the small letters of a word, be it digits or the name of a
cardinal. -/
theorem Numeral.ofWord?_lower (w : String) : ofWord? (Text.lower w) = ofWord? w := by
  rw [ofWord?, Text.lower_lower, ofWord?]

namespace Command

/-- Whether the first word after a category is its number does not depend on case, so
the label begins at the same word. -/
theorem splitNumber_lower (category : Category) (words : List String) :
    splitNumber category (words.map Text.lower) =
      (splitNumber category words).map (Prod.map id (List.map Text.lower)) := by
  unfold splitNumber
  split
  · cases words with
    | nil => rfl
    | cons w ws =>
        simp only [List.map_cons, Numeral.ofWord?_lower]
        cases Numeral.ofWord? w <;> rfl
  · rfl

/-- A payload in small letters is the same command in small letters, or it is refused
for the same reason. -/
theorem ofPayload_lower (payload : List String) (start stop : Seconds) :
    ofPayload (payload.map Text.lower) start stop = (ofPayload payload start stop).map lower := by
  cases payload with
  | nil => rfl
  | cons w ws =>
      simp only [ofPayload, List.map_cons, Category.ofWord?_lower]
      cases Category.ofWord? w with
      | none => rfl
      | some category =>
          simp only [splitNumber_lower, bind, Except.bind]
          cases splitNumber category ws with
          | error reason => rfl
          | ok split =>
              simp only [Except.map, Prod.map, phrase_map_lower, Text.isEmpty_lower]
              by_cases hTag : category = .apply ∧ (phrase split.2).isEmpty = true
              · rw [if_pos hTag, if_pos hTag]
              · rw [if_neg hTag, if_neg hTag]
                rfl

/-- The order of commands does not hang on their labels. They are sorted by their starts
alone, and sorting is stable. -/
theorem inOrder_lower (commands : List Command) :
    inOrder (commands.map lower) = (inOrder commands).map lower :=
  (List.map_mergeSort (f := lower) fun _ _ _ _ => rfl).symm

end Command

/-- Reasons are given in small letters. -/
theorem Misspoken.lower_message (m : Misspoken) : Text.lower m.message = m.message := by
  cases m <;> decide

/-- The reasons why a payload is refused are written in small letters already, so only
the quoted payload changes. -/
theorem Unrecognized.message_lower (u : Unrecognized) :
    message ⟨Text.lower u.payload, u.reason⟩ = Text.lower u.message := by
  have hOpen : Text.lower "\"" = "\"" := rfl
  have hClose : Text.lower "\": " = "\": " := rfl
  simp only [message, Text.lower_append, hOpen, hClose, Misspoken.lower_message]

namespace Window

/-- A window in small letters gives the same command in small letters, if it gives one.
Words are looked up by their small letters, so only the label keeps a case. -/
theorem command?_lower (w : Window) : w.lower.command? = w.command?.map Command.lower := by
  simp only [command?, classify, lower, Command.ofPayload_lower]
  cases Command.ofPayload w.payload w.start w.stop <;> rfl

/-- A window in small letters gives the same issue in small letters, if it gives one. -/
theorem issue?_lower (w : Window) : w.lower.issue? = w.issue?.map Issue.lower := by
  simp only [issue?, classify, lower, Command.ofPayload_lower, phrase_map_lower]
  cases Command.ofPayload w.payload w.start w.stop with
  | ok c => rfl
  | error reason =>
      simp only [Except.map, Option.map_some, Issue.lower, ← Unrecognized.message_lower]

theorem commands_lower (windows : List Window) :
    (windows.map lower).filterMap command? = (windows.filterMap command?).map Command.lower := by
  rw [List.filterMap_map, List.map_filterMap]
  exact List.filterMap_congr fun w _ => w.command?_lower

theorem issues_lower (windows : List Window) :
    (windows.map lower).filterMap issue? = (windows.filterMap issue?).map Issue.lower := by
  rw [List.filterMap_map, List.map_filterMap]
  exact List.filterMap_congr fun w _ => w.issue?_lower

end Window

/-! ### Segments -/

namespace Timeline

/-- A label that is made up for a command without one consists of small letters. -/
theorem standaloneLabel_lower (c : Command) :
    standaloneLabel c.lower = Text.lower (standaloneLabel c) := by
  have hWord : Text.lower c.category.word = c.category.word := by
    cases c.category <;> decide
  have hColon : Text.lower ": " = ": " := rfl
  simp only [standaloneLabel, Command.lower, Text.isEmpty_lower]
  split
  · exact hWord.symm
  · simp only [Text.lower_append, hWord, hColon]

theorem orphan_lower (c : Command) : orphan c.lower = (orphan c).lower := by
  have hBefore : Text.lower "no segment to apply \"" = "no segment to apply \"" := by
    decide
  have hAfter : Text.lower "\" to" = "\" to" := rfl
  simp only [orphan, Command.lower, Issue.lower, Text.lower_append, hBefore, hAfter]

theorem deprecated_lower (c : Command) : deprecated c.lower = (deprecated c).lower := by
  have hDetail : Text.lower "\"ending\" is no longer supported and was ignored" =
      "\"ending\" is no longer supported and was ignored" := by
    decide
  simp only [deprecated, Command.lower, Issue.lower, hDetail]

/-- A segment that is opened in small letters is the one that is opened otherwise, in
small letters. -/
theorem openSegment_lower (t : Timeline) (start : Seconds) (label : String) :
    t.lower.openSegment start (Text.lower label) = (t.openSegment start label).lower := by
  have hIndex : t.lower.nextIndex = t.nextIndex := by
    cases hSegments : t.segments <;> simp [nextIndex, lower, hSegments, Segment.lower]
  rw [openSegment, hIndex]
  rfl

/-- What one command does to a timeline it does in small letters too. This is the step
on which the same of all commands rests. -/
theorem apply_lower (t : Timeline) (c : Command) : t.lower.apply c.lower = (t.apply c).lower := by
  have hKind : c.lower.kind = c.kind := rfl
  have hCategory : c.lower.category = c.category := rfl
  cases hCase : c.kind with
  | start =>
      simp only [apply, hKind, hCase, hCategory]
      split
      · exact openSegment_lower { t with scene := c.number, step := none } c.start c.label
      · exact openSegment_lower { t with step := c.number } c.start c.label
  | standalone =>
      simp only [apply, hKind, hCase, standaloneLabel_lower]
      exact openSegment_lower t c.start (standaloneLabel c)
  | retroactive =>
      cases hSegments : t.segments with
      | nil => simp [apply, hKind, hCase, lower, hSegments, orphan_lower]
      | cons s ss =>
          simp only [apply, hKind, hCase, lower, hSegments, List.map_cons]
          simp only [Segment.lower, ← Tags.insert_lower]
          rfl
  | deprecatedEnding => simp [apply, hKind, hCase, lower, deprecated_lower]

/-- What a list of commands does to a timeline it does in small letters too. -/
theorem foldl_apply_lower (commands : List Command) (t : Timeline) :
    (commands.map Command.lower).foldl apply t.lower = (commands.foldl apply t).lower := by
  induction commands generalizing t with
  | nil => rfl
  | cons c commands ih => rw [List.map_cons, List.foldl_cons, apply_lower, ih, List.foldl_cons]

/-- Commands are put in order by their times alone, so those in small letters have the
same order. -/
theorem ofCommands_lower (commands : List Command) :
    ofCommands (commands.map Command.lower) = (ofCommands commands).lower := by
  rw [ofCommands, Command.inOrder_lower]
  exact foldl_apply_lower (Command.inOrder commands) initial

end Timeline

theorem Segment.closeAll_lower (footage : Seconds) (segments : List Segment) :
    closeAll footage (segments.map lower) = (closeAll footage segments).map lower := by
  refine List.ext_getElem? fun i => ?_
  rw [getElem?_closeAll, List.getElem?_map, List.getElem?_map, List.getElem?_map,
    getElem?_closeAll, Option.map_map, Option.map_map, Option.map_map]
  rfl

/-! ### Cuts -/

namespace Cut

variable (ts : List Token) (footage : Seconds)

theorem commands_lower : commands (ts.map Token.lower) = (commands ts).map Command.lower := by
  rw [commands_eq, commands_eq, Token.normalized_lower, Token.windows_lower,
    Window.commands_lower]

theorem segments_lower :
    (ofTokens (ts.map Token.lower) footage).segments =
      (ofTokens ts footage).segments.map Segment.lower := by
  rw [segments_ofTokens, segments_ofTokens, commands_lower, Timeline.ofCommands_lower,
    ← Segment.closeAll_lower, List.map_reverse]
  rfl

theorem warnings_lower :
    (ofTokens (ts.map Token.lower) footage).report.warnings =
      (ofTokens ts footage).report.warnings.map Issue.lower := by
  rw [warnings_ofTokens, warnings_ofTokens, commands_lower, Timeline.ofCommands_lower,
    List.map_reverse]
  rfl

/-- The cut in small letters is seen from the tokens in small letters. Only the
times in messages are spelled with letters of their own. -/
theorem lower_ofTokens :
    (ofTokens ts footage).lower =
      let small := ts.map Token.lower
      ⟨(ofTokens small footage).segments,
        ⟨(Token.malformed (Token.normalized small)).map Issue.lower ++
            (Token.windows (Token.normalized small)).filterMap Window.issue?,
          (ofTokens small footage).report.warnings⟩⟩ := by
  have hErrors : (ofTokens ts footage).report.errors.map Issue.lower =
      (Token.malformed (Token.normalized (ts.map Token.lower))).map Issue.lower ++
        (Token.windows (Token.normalized (ts.map Token.lower))).filterMap Window.issue? := by
    rw [errors_ofTokens, Token.normalized_lower, Token.malformed_lower, Token.windows_lower,
      Window.issues_lower, List.map_append]
  rw [lower, Report.lower, hErrors, ← segments_lower, ← warnings_lower]

/-- The case of letters never moves a cut. Tokens with the same times whose words
are the same in small letters have the same cut in small letters, and of each of
them the labels and tags are spelled as they were said. -/
theorem ofTokens_recased {ts us : List Token}
    (h : us.map Token.lower = ts.map Token.lower) (footage : Seconds) :
    (ofTokens us footage).lower = (ofTokens ts footage).lower ∧
      ∀ s ∈ (ofTokens ts footage).segments, s.AsSpoken (Token.windows (Token.normalized ts)) := by
  refine ⟨?_, fun s hMem => asSpoken_of_mem_segments hMem⟩
  rw [lower_ofTokens, lower_ofTokens, h]

/-- The first speaker gives two tags, the second one the same tag twice. -/
theorem ofTokens_recased_tags :
    let ts : List Token :=
      [⟨"Slate,", ⟨0x3FF0000000000000⟩⟩, ⟨"Scene", Seconds.zero⟩, ⟨"Twenty-One", Seconds.zero⟩,
        ⟨"Kitchen", Seconds.zero⟩, ⟨"done.", Seconds.zero⟩, ⟨"slate", ⟨0x4000000000000000⟩⟩,
        ⟨"apply", Seconds.zero⟩, ⟨"Good", Seconds.zero⟩, ⟨"done", Seconds.zero⟩,
        ⟨"slate", ⟨0x4008000000000000⟩⟩, ⟨"APPLY", Seconds.zero⟩, ⟨"good", Seconds.zero⟩,
        ⟨"Done!", Seconds.zero⟩]
    let us : List Token :=
      [⟨"SLATE,", ⟨0x3FF0000000000000⟩⟩, ⟨"scene", Seconds.zero⟩, ⟨"twenty-one", Seconds.zero⟩,
        ⟨"kitchen", Seconds.zero⟩, ⟨"DONE.", Seconds.zero⟩, ⟨"Slate", ⟨0x4000000000000000⟩⟩,
        ⟨"Apply", Seconds.zero⟩, ⟨"GOOD", Seconds.zero⟩, ⟨"done", Seconds.zero⟩,
        ⟨"slate", ⟨0x4008000000000000⟩⟩, ⟨"apply", Seconds.zero⟩, ⟨"GOOD", Seconds.zero⟩,
        ⟨"done!", Seconds.zero⟩]
    us.map Token.lower = ts.map Token.lower ∧
      (ofTokens ts Seconds.zero).segments.length = 1 ∧
      (ofTokens us Seconds.zero).lower = (ofTokens ts Seconds.zero).lower ∧
      ∀ s ∈ (ofTokens ts Seconds.zero).segments,
        s.AsSpoken (Token.windows (Token.normalized ts)) := by
  intro ts us
  have hLetters : us.map Token.lower = ts.map Token.lower := by decide +kernel
  have hLength : (ofTokens ts Seconds.zero).segments.length = 1 := by
    rw [length_segments]
    decide +kernel
  exact ⟨hLetters, hLength, ofTokens_recased hLetters Seconds.zero⟩

end Cut

end RoughCut
