import RoughCut.Proofs.Json.FieldTexts
import RoughCut.Record

/-!
The two forms of a transcript. The transcriber writes words in segments, some of
them perhaps without words, with fields of its own beside those that are read. Its
text is read as the transcript that lists the same words as tokens, so that the
segments play no part in the cut.
-/

namespace RoughCut

open Json

/-- The text is a number within range, and this is its time. -/
def IsTime (x : Seconds) (text : String) : Prop :=
  Shape.seconds.parse text = .ok x

/-- The text is this text in quotes. -/
def IsQuoted (s : String) (text : String) : Prop :=
  Shape.string.parse text = .ok s

namespace Whisper

/-- A word as the transcriber writes it. -/
def IsWord (t : Token) : String → Prop :=
  IsObject (Value.depthLimit - 5)
    [("word", some (IsQuoted t.text)), ("start", some (IsTime t.start))]

/-- A segment with these words, or without a field for them. -/
def IsSegment (words : Option (List Token)) : String → Prop :=
  IsObject (Value.depthLimit - 3) [("words", words.map (IsArray IsWord))]

/-- A transcript in segments, with the duration of the footage or without. -/
def IsTranscript (segments : List (Option (List Token))) (duration : Option Seconds) :
    String → Prop :=
  IsObject (Value.depthLimit - 1)
    [("tokens", none), ("duration", duration.map IsTime),
      ("segments", some (IsArray IsSegment segments))]

/-- The words of all segments in order. -/
def words (segments : List (Option (List Token))) : List Token :=
  (segments.map fun words => words.getD []).flatten

end Whisper

/-- A token as the library writes it. -/
def Token.IsWritten (t : Token) : String → Prop :=
  IsObject (Value.depthLimit - 3)
    [("text", some (IsQuoted t.text)), ("start_time", some (IsTime t.start))]

/-- A transcript as the library writes it, with the duration or without. -/
def Transcript.IsWritten (tokens : List Token) (duration : Option Seconds) : String → Prop :=
  IsObject (Value.depthLimit - 1)
    [("tokens", some (IsArray Token.IsWritten tokens)), ("total_duration", duration.map IsTime)]

/-! Reading the parts. -/

section Leaves

variable {text : String}

/-- What is written as a time is read as that time, on every level. -/
theorem readWithin_time {x : Seconds} (h : IsTime x text) (levels : Nat) :
    Shape.seconds.readWithin levels text = .ok x :=
  Shape.readWithin_of_parse (fun _ hTaken => by cases hTaken) (fun _ hTaken => by cases hTaken) h
    levels

theorem readWithin_quoted {s : String} (h : IsQuoted s text) (levels : Nat) :
    Shape.string.readWithin levels text = .ok s :=
  Shape.readWithin_of_parse (fun _ hTaken => by cases hTaken) (fun _ hTaken => by cases hTaken) h
    levels

/-- A text in quotes, with escapes where they are needed, is written as itself. -/
theorem isQuoted_quoted (s : String) : IsQuoted s (quoted s) := by
  rw [IsQuoted, Shape.parse_eq_readWithin]
  exact Shape.readWithin_eq_ok_iff.mpr ⟨_, parse_quoted s, rfl⟩

end Leaves

section Records

variable {name textName timeName : String} {levels : Nat} {t : Token} {text : String}

/-- A record of a text and a time, under any two names. -/
theorem readWithin_timed (hNames : timeName ≠ textName)
    (h : IsObject levels [(textName, some (IsQuoted t.text)), (timeName, some (IsTime t.start))]
      text) :
    (Shape.record name (.field textName .required .string
      (.field timeName .required .seconds .done))).readWithin (levels + 1) text =
        .ok (t.text, t.start, ()) := by
  have hText := fun s u (h : IsQuoted s u) => readWithin_quoted h levels
  have hTime := fun x u (h : IsTime x u) => readWithin_time h levels
  obtain ⟨ms, hRead, hFields⟩ := h.exists_readWithin (by
    rw [List.forall_mem_cons, List.forall_mem_singleton]
    exact ⟨Shape.readable (f := id) hText textName (some t.text),
      Shape.readable (f := id) hTime timeName (some t.start)⟩)
  rw [List.forall_mem_cons, List.forall_mem_singleton] at hFields
  refine Shape.readWithin_eq_ok_iff.mpr ⟨_, hRead, ?_⟩
  have hFound : (Fields.field textName .required .string
      (.field timeName .required .seconds .done)).FoundIn ms
        (some t.text, some t.start, ()) := by
    refine ⟨Shape.forall₂_of_readFrom (o := some t.text) (f := id) hText hFields.1, ?_, trivial⟩
    rw [valuesOf_without, if_neg hNames]
    exact Shape.forall₂_of_readFrom (o := some t.start) (f := id) hTime hFields.2
  exact Shape.ofValue_record hFound

/-- A record with nothing but the two. -/
theorem isObject_timed {start : String} (hNames : timeName ≠ textName)
    (h : IsTime t.start start) :
    IsObject levels [(textName, some (IsQuoted t.text)), (timeName, some (IsTime t.start))]
      (compactObject [(textName, quoted t.text), (timeName, start)]) := by
  refine isObject_compactObject ?_ (by simp)
  rw [List.forall_mem_cons, List.forall_mem_singleton]
  simpa [hNames, hNames.symm] using ⟨isQuoted_quoted t.text, h⟩

theorem Token.readWithin_shape (h : t.IsWritten text) :
    Token.shape.readWithin (Value.depthLimit - 2) text = .ok t :=
  Shape.readWithin_view (readWithin_timed (by decide) h)

namespace Whisper

theorem readWithin_word (h : IsWord t text) :
    word.readWithin (Value.depthLimit - 4) text = .ok t :=
  Shape.readWithin_view (readWithin_timed (by decide) h)

theorem readWithin_words {words : List Token} (h : IsArray IsWord words text) :
    (Shape.list word).readWithin (Value.depthLimit - 3) text = .ok words := by
  have hWords := Shape.readWithin_list (f := id) (fun t u hu => readWithin_word hu) h
  rwa [List.map_id] at hWords

/-- An object with nothing but its words is a segment with these words. -/
theorem isSegment_words {words : List Token} {items : List String}
    (h : List.Forall₂ IsWord words items) :
    IsSegment (some words) (compactObject [("words", compactArray items)]) :=
  isObject_compactObject (List.forall_mem_singleton.mpr (.cons (isArray_compactArray h) .nil))
    (by simp)

/-- A segment is read as the tokens of its words. Where it has none, nothing is said in
it. -/
theorem readWithin_segment {words : Option (List Token)} (h : IsSegment words text) :
    segment.readWithin (Value.depthLimit - 2) text = .ok (words.getD []) := by
  have hWords := fun ts u (h : IsArray IsWord ts u) => readWithin_words h
  obtain ⟨ms, hRead, hFields⟩ := h.exists_readWithin (by
    rw [List.forall_mem_singleton]
    exact Shape.readable (f := id) hWords "words" words)
  rw [List.forall_mem_singleton] at hFields
  have hFound : (Fields.field "words" (.anywhere []) (.list word) .done).FoundIn ms
      (words.map id, ()) :=
    ⟨Shape.forall₂_of_readFrom hWords hFields, trivial⟩
  refine Shape.readWithin_view (a := (words.getD [], ())) (Shape.readWithin_eq_ok_iff.mpr ⟨_, hRead, ?_⟩)
  rw [Shape.ofValue_record hFound]
  cases words <;> rfl

end Whisper

end Records

namespace Transcript

variable {duration : Option Seconds} {text : String}

/-- The form is told by whether there is a member for the tokens. What the value of that
member is plays no part in it. -/
theorem ofJson_object {ms : List (String × Value)} (h : Value.parse text = .ok (.object ms)) :
    ofJson text = mismatched
      ((if (valuesOf "tokens" ms).isEmpty then Whisper.transcript else shape).ofValue (.object ms)) := by
  have hMember : (Value.object ms).hasMember "tokens" = !(valuesOf "tokens" ms).isEmpty := by
    rw [Bool.eq_iff_iff, hasMember_iff, ← List.count_pos_iff, ← length_valuesOf,
      List.length_pos_iff]
    simp
  rw [ofJson, h, ok_bind, hMember]
  cases (valuesOf "tokens" ms).isEmpty <;> rfl

/-- The form of the transcriber is read as its words in order. -/
theorem ofJson_whisper {segments : List (Option (List Token))}
    (h : Whisper.IsTranscript segments duration text) :
    ofJson text = .ok ⟨Whisper.words segments, duration.getD Seconds.zero⟩ := by
  have hTime := fun x u (h : IsTime x u) => readWithin_time h (Value.depthLimit - 1)
  have hSegments := fun (ss : List (Option (List Token))) u (h : IsArray Whisper.IsSegment ss u) =>
    Shape.readWithin_list (fun ts u hu => Whisper.readWithin_segment hu) h
  obtain ⟨ms, hRead, hFields⟩ := h.exists_readWithin (by
    rw [List.forall_mem_cons, List.forall_mem_cons, List.forall_mem_singleton]
    exact ⟨Shape.readable (f := id) hTime "tokens" none,
      Shape.readable (f := id) hTime "duration" duration,
      Shape.readable hSegments "segments" (some segments)⟩)
  rw [List.forall_mem_cons, List.forall_mem_cons, List.forall_mem_singleton] at hFields
  obtain ⟨hTokens, hDuration, hList⟩ := hFields
  have hNone : valuesOf "tokens" ms = [] := List.forall₂_nil_left_iff.mp hTokens
  have hFound : (Fields.field "duration" (.anywhere Seconds.zero) .seconds
      (.field "segments" .required (.list Whisper.segment) .done)).FoundIn ms
        (duration.map id, some (segments.map fun words => words.getD []), ()) := by
    refine ⟨Shape.forall₂_of_readFrom hTime hDuration, ?_, trivial⟩
    rw [valuesOf_without, if_neg (by decide)]
    exact Shape.forall₂_of_readFrom (o := some segments) hSegments hList
  have hTaken : Whisper.transcript.ofValue (.object ms) =
      .ok ⟨Whisper.words segments, duration.getD Seconds.zero⟩ := by
    rw [Whisper.transcript, Shape.ofValue, Shape.ofValue_record hFound]
    cases duration <;> rfl
  rw [ofJson_object hRead, hNone]
  exact congrArg mismatched hTaken

/-- The form of the library is read as its tokens. -/
theorem ofJson_written {tokens : List Token} (h : IsWritten tokens duration text) :
    ofJson text = .ok ⟨tokens, duration.getD Seconds.zero⟩ := by
  have hTime := fun x u (h : IsTime x u) => readWithin_time h (Value.depthLimit - 1)
  have hTokens := fun (ts : List Token) u (h : IsArray Token.IsWritten ts u) =>
    Shape.readWithin_list (f := id) (fun t u hu => Token.readWithin_shape hu) h
  obtain ⟨ms, hRead, hFields⟩ := h.exists_readWithin (by
    rw [List.forall_mem_cons, List.forall_mem_singleton]
    exact ⟨Shape.readable hTokens "tokens" (some tokens),
      Shape.readable (f := id) hTime "total_duration" duration⟩)
  rw [List.forall_mem_cons, List.forall_mem_singleton] at hFields
  obtain ⟨hList, hDuration⟩ := hFields
  have hOne : (valuesOf "tokens" ms).isEmpty = false := by
    obtain ⟨v, vs, _, _, hValues⟩ := List.forall₂_cons_left_iff.mp hList
    rw [hValues]
    rfl
  have hFound : (Fields.field "tokens" .required (.list Token.shape)
      (.field "total_duration" (.anywhere Seconds.zero) .seconds .done)).FoundIn ms
        (some (tokens.map id), duration.map id, ()) := by
    refine ⟨Shape.forall₂_of_readFrom (o := some tokens) hTokens hList, ?_, trivial⟩
    rw [valuesOf_without, if_neg (by decide)]
    exact Shape.forall₂_of_readFrom hTime hDuration
  have hTaken : shape.ofValue (.object ms) = .ok ⟨tokens, duration.getD Seconds.zero⟩ := by
    rw [shape, Shape.ofValue, Shape.ofValue_record hFound, List.map_id]
    cases duration <;> rfl
  rw [ofJson_object hRead, hOne]
  exact congrArg mismatched hTaken

/-- Both forms of the same words are one transcript. The words are read in order, with
the times of their numbers, and the duration is zero where none is told. So both have
the same cut, and so has every other way to lay the words out in segments. -/
theorem ofJson_of_forms {segments : List (Option (List Token))} {whisper native : String}
    (hWhisper : Whisper.IsTranscript segments duration whisper)
    (hNative : IsWritten (Whisper.words segments) duration native) :
    let t : Transcript := ⟨Whisper.words segments, duration.getD Seconds.zero⟩
    ofJson whisper = .ok t ∧ ofJson native = .ok t ∧
      (ofJson whisper).map cut = (ofJson native).map cut ∧
      ∀ regrouped other, Whisper.words regrouped = Whisper.words segments →
        Whisper.IsTranscript regrouped duration other →
          ofJson other = .ok t ∧ (ofJson other).map cut = (ofJson whisper).map cut := by
  intro t
  have hFirst : ofJson whisper = .ok t := ofJson_whisper hWhisper
  have hSecond : ofJson native = .ok t := ofJson_written hNative
  refine ⟨hFirst, hSecond, by rw [hFirst, hSecond], ?_⟩
  intro regrouped other hWords hOther
  have hThird := ofJson_whisper hOther
  rw [hWords] at hThird
  exact ⟨hThird, by rw [hThird, hFirst]⟩

/-- Two words in four segments, of which one has no field for words and one no words. -/
theorem ofJson_of_forms_silent :
    let slate : Token := ⟨" Slate", Seconds.ofInt 1⟩
    let done : Token := ⟨"done", Seconds.ofInt 2⟩
    let segments := [none, some [slate], some [], some [done]]
    let whisper := "\x7b\"segments\":[\x7b\"id\":2\x7d,\x7b\"words\":[\x7b\"word\":\" Slate\",\"start\":1\x7d]\x7d," ++
      "\x7b\"words\":[]\x7d,\x7b\"words\":[\x7b\"word\":\"done\",\"start\":2\x7d]\x7d],\"end\":2\x7d"
    let native := "\x7b\"tokens\":[\x7b\"text\":\" Slate\",\"start_time\":1\x7d," ++
      "\x7b\"text\":\"done\",\"start_time\":2\x7d]\x7d"
    Whisper.IsTranscript segments none whisper ∧ IsWritten (Whisper.words segments) none native ∧
      ofJson whisper = .ok ⟨[slate, done], Seconds.zero⟩ ∧ ofJson native = ofJson whisper := by
  intro slate done segments whisper native
  have hOne : Value.parse "1" = .ok (.number (.integer 1)) := by
    have hBytes : Text.Utf8.encode "1" = [0x31] := by decide +kernel
    rw [Value.parse, hBytes]
    rfl
  have hTwo : Value.parse "2" = .ok (.number (.integer 2)) := by
    have hBytes : Text.Utf8.encode "2" = [0x32] := by decide +kernel
    rw [Value.parse, hBytes]
    rfl
  have hStart : IsTime slate.start "1" := Shape.readWithin_eq_ok_iff.mpr ⟨_, hOne, rfl⟩
  have hEnd : IsTime done.start "2" := Shape.readWithin_eq_ok_iff.mpr ⟨_, hTwo, rfl⟩
  have hOther (levels : Nat) : ∃ v, Value.readWithin levels "2" = .ok v :=
    ⟨_, Value.readWithin_of_parse hTwo (by simp) (by simp) levels⟩
  have hWhisper : Whisper.IsTranscript segments none whisper := by
    have hText : whisper = compactObject [("segments", compactArray [compactObject [("id", "2")],
        compactObject [("words", compactArray
          [compactObject [("word", quoted slate.text), ("start", "1")]])],
        compactObject [("words", compactArray [])],
        compactObject [("words", compactArray
          [compactObject [("word", quoted done.text), ("start", "2")]])]]), ("end", "2")] := by
      decide +kernel
    have hNone : Whisper.IsSegment none (compactObject [("id", "2")]) :=
      isObject_compactObject (List.forall_mem_singleton.mpr .nil) (by simpa using hOther _)
    have hFirst := Whisper.isSegment_words (.cons (isObject_timed (by decide) hStart) .nil)
    have hLast := Whisper.isSegment_words (.cons (isObject_timed (by decide) hEnd) .nil)
    have hSegments := isArray_compactArray (.cons hNone (.cons hFirst
      (.cons (Whisper.isSegment_words .nil) (.cons hLast .nil))))
    rw [hText]
    refine isObject_compactObject ?_ (by simpa using hOther _)
    rw [List.forall_mem_cons, List.forall_mem_cons, List.forall_mem_singleton]
    exact ⟨.nil, .nil, .cons hSegments .nil⟩
  have hNative : IsWritten (Whisper.words segments) none native := by
    have hText : native = compactObject [("tokens", compactArray
        [compactObject [("text", quoted slate.text), ("start_time", "1")],
          compactObject [("text", quoted done.text), ("start_time", "2")]])] := by
      decide +kernel
    have hTokens : IsArray Token.IsWritten [slate, done] _ := isArray_compactArray
      (.cons (isObject_timed (by decide) hStart) (.cons (isObject_timed (by decide) hEnd) .nil))
    rw [hText]
    refine isObject_compactObject ?_ (by simp)
    rw [List.forall_mem_cons, List.forall_mem_singleton]
    exact ⟨.cons hTokens .nil, .nil⟩
  obtain ⟨hFirst, hSecond, _⟩ := ofJson_of_forms hWhisper hNative
  exact ⟨hWhisper, hNative, hFirst, hSecond.trans hFirst.symm⟩

end Transcript

end RoughCut
