import Mathlib.Algebra.Group.Nat.Defs
import RoughCut.Proofs.SpokenNumbers
import RoughCut.Proofs.SpokenWords
import RoughCut.Proofs.Text.CleanEnds
import RoughCut.Proofs.WindowPlaces

/-!
What a segment says is well formed, whatever the transcriber wrote. Its numbers
are positive, its label and its tags are in normal form, and no tag is empty:
words come to a window in normal form, joining them keeps their ends, and only a
word that stands for a positive number is taken for one.
-/

namespace RoughCut

/-- The segment has positive numbers of thirty-two bits, and a label and tags in
normal form, of which no tag is empty. -/
structure Segment.WellFormed (s : Segment) : Prop where
  scene : ∀ n ∈ s.scene, 1 ≤ n.toNat ∧ n.toNat ≤ 2 ^ 32 - 1
  step : ∀ n ∈ s.step, 1 ≤ n.toNat ∧ n.toNat ≤ 2 ^ 32 - 1
  label : Text.normalize s.label = s.label
  tags : ∀ tag ∈ s.tags.toList, Text.normalize tag = tag ∧ tag ≠ ""

theorem Category.cleanEnds_word (category : Category) : Text.CleanEnds category.word := by
  rw [← Text.normalize_eq_self_iff]
  cases category <;> decide

theorem Category.word_ne_empty (category : Category) : category.word ≠ "" := by
  cases category <;> decide

namespace Command

/-- What the command says is well formed, as a segment has to say it. -/
structure Tidy (c : Command) : Prop where
  number : ∀ n ∈ c.number, 1 ≤ n.toNat
  label : Text.CleanEnds c.label
  tag : c.isTag = true → c.label ≠ ""

/-- A window of words in normal form makes a command that says what is well formed. Its
label is a phrase of some of these words, or nothing. -/
theorem tidy_of_command? {w : Window} (hClean : ∀ word ∈ w.payload, Text.CleanEnds word)
    (hSome : ∀ word ∈ w.payload, word ≠ "") {c : Command} (h : w.command? = some c) : c.Tidy := by
  obtain ⟨word, rest, category, number, said, hPayload, -, hSplit, hTag, rfl⟩ :=
    ofPayload_eq_ok_iff.mp (Window.command?_eq_some_iff.mp h)
  have hNumber := of_splitNumber hSplit
  have hSaid : said ⊆ w.payload ∧ ∀ n ∈ number, 1 ≤ n.toNat := by
    split at hNumber
    · obtain ⟨spoken, n, rfl, hValue, rfl⟩ := hNumber
      exact ⟨by simp [hPayload], by simpa using Numeral.pos_of_ofWord? hValue⟩
    · obtain ⟨rfl, rfl⟩ := hNumber
      exact ⟨by simp [hPayload], by simp⟩
  refine ⟨hSaid.2, cleanEnds_phrase ?_ ?_, fun hKind => ?_⟩
  · exact fun v hv => hClean v (hSaid.1 hv)
  · exact fun v hv => hSome v (hSaid.1 hv)
  · cases category with
    | apply => simpa using hTag
    | scene | step | mark | effect | ending => simp [isTag, Category.kind] at hKind

/-- A segment is called what its command says, with the word of the category in
front of it where that is needed. -/
theorem Tidy.cleanEnds_title {c : Command} (h : c.Tidy) : Text.CleanEnds c.title := by
  unfold title Timeline.standaloneLabel
  split
  · exact h.label
  · split
    · exact c.category.cleanEnds_word
    · next hLabel =>
      exact c.category.cleanEnds_word.append h.label c.category.word_ne_empty
        (by simpa using hLabel) ": "

end Command

namespace Timeline

/-- All that has been taken over from commands is well formed. -/
structure WellFormed (t : Timeline) : Prop where
  scene : ∀ n ∈ t.scene, 1 ≤ n.toNat
  step : ∀ n ∈ t.step, 1 ≤ n.toNat
  segments : ∀ s ∈ t.segments, s.WellFormed

variable {t : Timeline} {c : Command}

theorem wellFormed_initial : initial.WellFormed := by
  constructor <;> simp [initial]

/-- To enter a scene or a step leaves a timeline well formed, for the numbers of
commands are above zero. -/
theorem WellFormed.enter (h : t.WellFormed) (hc : c.Tidy) : (t.enter c).WellFormed := by
  unfold Timeline.enter
  split
  · split
    · exact ⟨hc.number, by simp, h.segments⟩
    · exact ⟨h.scene, hc.number, h.segments⟩
  · exact h

/-- A segment with a clean label leaves a timeline well formed. -/
theorem WellFormed.openSegment (h : t.WellFormed) {label : String}
    (hLabel : Text.CleanEnds label) (start : Seconds) :
    (t.openSegment start label).WellFormed := by
  have hBits (n : UInt32) : n.toNat ≤ 2 ^ 32 - 1 := Nat.le_sub_one_of_lt n.toNat_lt
  refine ⟨h.scene, h.step, List.forall_mem_cons.mpr ⟨?_, h.segments⟩⟩
  constructor
  · exact fun n hn => ⟨h.scene n hn, hBits n⟩
  · exact fun n hn => ⟨h.step n hn, hBits n⟩
  · exact Text.normalize_eq_self_iff.mpr hLabel
  · simp [Tags.empty]

theorem WellFormed.apply (h : t.WellFormed) (hc : c.Tidy) : (t.apply c).WellFormed := by
  rcases opens_or_isTag_or_deprecated c with hOpens | hTag | hDeprecated
  · rw [apply_of_opens hOpens]
    exact (h.enter hc).openSegment hc.cleanEnds_title c.start
  · cases hSegments : t.segments with
    | nil =>
        rw [apply_orphan hTag hSegments]
        exact ⟨h.scene, h.step, h.segments⟩
    | cons s ss =>
        rw [apply_tag hTag hSegments]
        have hAll := h.segments
        rw [hSegments] at hAll
        obtain ⟨hLast, hEarlier⟩ := List.forall_mem_cons.mp hAll
        refine ⟨h.scene, h.step, List.forall_mem_cons.mpr ⟨?_, hEarlier⟩⟩
        refine ⟨hLast.scene, hLast.step, hLast.label, fun tag hMem => ?_⟩
        rcases Tags.mem_insert.mp hMem with rfl | hMem
        · exact ⟨Text.normalize_eq_self_iff.mpr hc.label, hc.tag hTag⟩
        · exact hLast.tags tag hMem
  · rw [apply_deprecated hDeprecated]
    exact ⟨h.scene, h.step, h.segments⟩

/-- Tidy commands leave a timeline well formed, however many they are. -/
theorem WellFormed.foldl_apply {commands : List Command} (hCommands : ∀ c ∈ commands, c.Tidy)
    (h : t.WellFormed) : (commands.foldl Timeline.apply t).WellFormed := by
  induction commands generalizing t with
  | nil => exact h
  | cons c commands ih =>
      obtain ⟨hFirst, hRest⟩ := List.forall_mem_cons.mp hCommands
      exact ih hRest (h.apply hFirst)

end Timeline

namespace Cut

/-- All commands of a transcript are tidy, since they were made of words in normal form.
-/
theorem tidy_of_mem_commands {tokens : List Token} {c : Command} (h : c ∈ commands tokens) :
    c.Tidy := by
  rw [commands_eq] at h
  obtain ⟨w, hWindow, hCommand⟩ := List.mem_filterMap.mp h
  obtain ⟨place, hPlace⟩ := Token.exists_place_of_mem_windows hWindow
  have hNormal : ∀ word ∈ w.payload, Text.CleanEnds word ∧ word ≠ "" := by
    intro word hWord
    obtain ⟨t, hMem, rfl⟩ := hPlace.exists_of_mem_payload hWord
    obtain ⟨hText, hSome⟩ := Token.isNormal_of_mem_normalized hMem
    exact ⟨Text.normalize_eq_self_iff.mp hText, hSome⟩
  exact Command.tidy_of_command? (fun word hWord => (hNormal word hWord).1)
    (fun word hWord => (hNormal word hWord).2) hCommand

/-- Every segment of every cut is well formed, so that neither its label nor a
tag starts or ends with a blank or with punctuation. -/
theorem wellFormed_of_mem_segments {tokens : List Token} {footage : Seconds} {s : Segment}
    (h : s ∈ (ofTokens tokens footage).segments) :
    s.WellFormed ∧ ∀ text ∈ s.label :: s.tags.toList, Text.CleanEnds text := by
  have hTimeline : (Timeline.ofCommands (commands tokens)).WellFormed :=
    Timeline.wellFormed_initial.foldl_apply fun c hMem =>
      tidy_of_mem_commands ((Command.perm_inOrder _).mem_iff.mp hMem)
  obtain ⟨o, hMem, next, rfl⟩ := exists_open_of_mem_segments h
  have hFormed := hTimeline.segments o hMem
  -- closing a segment changes nothing but its end
  refine ⟨⟨hFormed.scene, hFormed.step, hFormed.label, hFormed.tags⟩, ?_⟩
  refine List.forall_mem_cons.mpr ⟨Text.normalize_eq_self_iff.mp hFormed.label, fun tag hTag => ?_⟩
  exact Text.normalize_eq_self_iff.mp (hFormed.tags tag hTag).1

/-- Blanks, brackets, dashes and quotes around words are gone, those inside stay. -/
theorem wellFormed_of_mem_segments_bracketed :
    let tokens : List Token :=
      [⟨" Slate,", ⟨0x3FF0000000000000⟩⟩, ⟨"SCENE:", ⟨0x3FF0000000000000⟩⟩,
        ⟨"Twenty-One!", ⟨0x3FF0000000000000⟩⟩, ⟨"(hall", ⟨0x3FF0000000000000⟩⟩,
        ⟨"--", ⟨0x3FF0000000000000⟩⟩, ⟨"Bob's)", ⟨0x3FF0000000000000⟩⟩,
        ⟨"done.", ⟨0x4000000000000000⟩⟩, ⟨"slate", ⟨0x4008000000000000⟩⟩,
        ⟨"apply", ⟨0x4008000000000000⟩⟩, ⟨"\"b-roll\"", ⟨0x4008000000000000⟩⟩,
        ⟨"done", ⟨0x4010000000000000⟩⟩]
    let footage : Seconds := ⟨0x4024000000000000⟩
    let s : Segment :=
      ⟨1, ⟨0x3FF0000000000000⟩, footage, some 21, none, "hall Bob's", Tags.ofList ["b-roll"]⟩
    s ∈ (ofTokens tokens footage).segments ∧ s.WellFormed ∧
      ∀ text ∈ s.label :: s.tags.toList, Text.CleanEnds text := by
  intro tokens footage s
  let scene : Command :=
    ⟨.start, ⟨0x3FF0000000000000⟩, ⟨0x4000000000000000⟩, .scene, some 21, "hall Bob's"⟩
  let tag : Command :=
    ⟨.retroactive, ⟨0x4008000000000000⟩, ⟨0x4010000000000000⟩, .apply, none, "b-roll"⟩
  have hCommands : commands tokens = [scene, tag] := by decide +kernel
  have hOrder : Command.Ordered [scene, tag] := by simp [Command.Ordered, scene, tag]; decide
  have hMem : s ∈ (ofTokens tokens footage).segments := by
    rw [segments_ofTokens, Timeline.ofCommands, hCommands, hOrder.inOrder_eq]
    decide +kernel
  exact ⟨hMem, wellFormed_of_mem_segments hMem⟩

end Cut

end RoughCut
