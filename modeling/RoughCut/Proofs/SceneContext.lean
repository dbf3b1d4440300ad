import RoughCut.Proofs.SegmentSpans

/-!
The scene and the step of a segment. A timeline carries both along while
commands come in, and what it carries can be read off the commands backwards:
the scene begun last, and the step begun last since then.
-/

namespace RoughCut

namespace Command

/-- Whether the command begins a scene. -/
def isScene (c : Command) : Bool :=
  decide (c.kind = .start ∧ c.category = .scene)

/-- Whether the command begins a step. -/
def isStep (c : Command) : Bool :=
  decide (c.kind = .start ∧ c.category ≠ .scene)

/-- The number of the scene that the commands begin last. -/
def latestScene (commands : List Command) : Option UInt32 :=
  (commands.reverse.find? isScene).bind number

/-- The number of the step that the commands begin last, unless a scene begins
after it. -/
def latestStep (commands : List Command) : Option UInt32 :=
  ((commands.reverse.takeWhile fun c => !c.isScene).find? isStep).bind number

variable {c d : Command} {commands later : List Command}

theorem opens_of_isScene (h : c.isScene = true) : c.opens = true := by
  simp_all [isScene, opens]

/-- The latest scene is that of the last command, if this is a scene, and else the one
before it. -/
theorem latestScene_concat (commands : List Command) (c : Command) :
    latestScene (commands ++ [c]) = if c.isScene then c.number else latestScene commands := by
  cases hScene : c.isScene <;> simp [latestScene, hScene]

/-- A scene ends the steps of the one before. Otherwise the latest step is that of the
last command, if this is one. -/
theorem latestStep_concat (commands : List Command) (c : Command) :
    latestStep (commands ++ [c]) =
      if c.isScene then none else if c.isStep then c.number else latestStep commands := by
  cases hScene : c.isScene <;> cases hStep : c.isStep <;> simp [latestStep, hScene, hStep]

/-- Only a scene command changes the scene. -/
theorem latestScene_append_of_opens_eq_false (commands : List Command)
    (h : ∀ d ∈ later, d.opens = false) :
    latestScene (commands ++ later) = latestScene commands := by
  have hNone : later.reverse.find? isScene = none := by
    refine List.find?_eq_none.mpr fun d hMem hScene => ?_
    have hOpens := opens_of_isScene hScene
    rw [h d (List.mem_reverse.mp hMem)] at hOpens
    cases hOpens
  rw [latestScene, List.reverse_append, List.find?_append, hNone]
  rfl

/-- What was said before a scene command has no part in the step. -/
theorem latestStep_append_of_isScene (h : c.isScene = true) (commands later : List Command) :
    latestStep (commands ++ c :: later) = latestStep later := by
  induction later using List.reverseRecOn with
  | nil => simp [latestStep, h]
  | append_singleton later d ih =>
      rw [← List.cons_append, ← List.append_assoc, latestStep_concat, latestStep_concat, ih]

theorem exists_isStep_of_latestStep {n : UInt32} (h : latestStep commands = some n) :
    ∃ d ∈ commands, d.isStep = true ∧ d.number = some n := by
  obtain ⟨d, hFound, hNumber⟩ := Option.bind_eq_some_iff.mp h
  have hMem := List.mem_of_find?_eq_some hFound
  exact ⟨d, List.mem_reverse.mp ((List.takeWhile_sublist _).mem hMem),
    List.find?_some hFound, hNumber⟩

end Command

namespace Timeline

variable {t : Timeline} {c : Command}

/-- A command changes the scene of a timeline only if it is a scene. -/
theorem scene_apply (t : Timeline) (c : Command) :
    (t.apply c).scene = if c.isScene then c.number else t.scene := by
  rcases opens_or_isTag_or_deprecated c with hOpens | hTag | hDeprecated
  · rw [apply_of_opens hOpens]
    simp only [openSegment, enter, Command.isScene, decide_eq_true_eq]
    split_ifs <;> simp_all
  · have hScene : c.isScene = false := by simp_all [Command.isTag, Command.isScene]
    cases hSegments : t.segments with
    | nil => simp [apply_orphan hTag hSegments, hScene]
    | cons s ss => simp [apply_tag hTag hSegments, hScene]
  · simp [apply_deprecated hDeprecated, Command.isScene, hDeprecated]

/-- A command changes the step of a timeline if it is a step, and ends it if it is a
scene. -/
theorem step_apply (t : Timeline) (c : Command) :
    (t.apply c).step =
      if c.isScene then none else if c.isStep then c.number else t.step := by
  rcases opens_or_isTag_or_deprecated c with hOpens | hTag | hDeprecated
  · rw [apply_of_opens hOpens]
    simp only [openSegment, enter, Command.isScene, Command.isStep, decide_eq_true_eq]
    split_ifs <;> simp_all
  · have hScene : c.isScene = false := by simp_all [Command.isTag, Command.isScene]
    have hStep : c.isStep = false := by simp_all [Command.isTag, Command.isStep]
    cases hSegments : t.segments with
    | nil => simp [apply_orphan hTag hSegments, hScene, hStep]
    | cons s ss => simp [apply_tag hTag hSegments, hScene, hStep]
  · simp [apply_deprecated hDeprecated, Command.isScene, Command.isStep, hDeprecated]

/-- What a timeline carries along is what the commands say read backwards. Commands that
are neither scenes nor steps pass it on. -/
theorem context_foldl_apply (commands : List Command) :
    (commands.foldl apply initial).scene = Command.latestScene commands ∧
      (commands.foldl apply initial).step = Command.latestStep commands := by
  induction commands using List.reverseRecOn with
  | nil => exact ⟨rfl, rfl⟩
  | append_singleton commands c ih =>
      rw [List.foldl_concat, scene_apply, step_apply, ih.1, ih.2,
        Command.latestScene_concat, Command.latestStep_concat]
      exact ⟨rfl, rfl⟩

/-- A segment is opened in the context that its own command leads to. -/
theorem context_enter (h : c.opens = true) (before : List Command) :
    ((before.foldl apply initial).enter c).scene = Command.latestScene (before ++ [c]) ∧
      ((before.foldl apply initial).enter c).step = Command.latestStep (before ++ [c]) := by
  have hContext := context_foldl_apply (before ++ [c])
  rw [List.foldl_concat, apply_of_opens h] at hContext
  exact hContext

end Timeline

/-- The segment is the one that the command makes after these commands. -/
structure Segment.MadeBy (before : List Command) (c : Command) (s : Segment) : Prop where
  index : s.index = before.countP Command.opens + 1
  start : s.start = c.start
  label : s.label =
    if c.kind = .start then c.label
    else if c.label = "" then c.category.word
    else c.category.word ++ ": " ++ c.label
  scene : s.scene = Command.latestScene (before ++ [c])
  step : s.step = Command.latestStep (before ++ [c])

section

variable (commands : List Command) (footage : Seconds) (report : Report)

/-- Each command that opens a segment has made the one at its place among such commands.
-/
theorem exists_madeBy_of_opens {before after : List Command} {c : Command}
    (h : Command.inOrder commands = before ++ c :: after) (hOpens : c.opens = true) :
    ∃ s, (buildSegments commands footage report).1[before.countP Command.opens]? = some s ∧
      s.MadeBy before c := by
  obtain ⟨stop, hSegment⟩ := exists_segment_of_opens commands footage report h hOpens
  obtain ⟨hScene, hStep⟩ := Timeline.context_enter hOpens before
  refine ⟨_, hSegment, ⟨rfl, rfl, ?_, hScene, hStep⟩⟩
  simp only [Command.title, Timeline.standaloneLabel, String.isEmpty_iff]

/-- Between two segments in a row nothing is opened, so the scene is another one
only if the later segment is that of a scene command. -/
theorem exists_isScene_of_scene_ne {k : Nat} {s next : Segment}
    (hHere : (buildSegments commands footage report).1[k]? = some s)
    (hNext : (buildSegments commands footage report).1[k + 1]? = some next)
    (hOther : s.scene ≠ next.scene) :
    ∃ before c after, Command.inOrder commands = before ++ c :: after ∧
      before.countP Command.opens = k + 1 ∧ c.isScene = true := by
  obtain ⟨hPlace, -⟩ := List.getElem?_eq_some_iff.mp hNext
  rw [length_buildSegments] at hPlace
  obtain ⟨before, c, after, hSplit, hOpens, hCount⟩ := exists_split_of_lt_countP hPlace
  have hEarlier : k < before.countP Command.opens := by omega
  obtain ⟨first, b, between, rfl, hFirstOpens, hFirstCount⟩ := exists_split_of_lt_countP hEarlier
  have hBetween : between.countP Command.opens = 0 := by
    rw [List.countP_append, List.countP_cons_of_pos hFirstOpens] at hCount
    omega
  have hSplitFirst : Command.inOrder commands = first ++ b :: (between ++ c :: after) := by
    rw [hSplit, List.append_assoc, List.cons_append]
  obtain ⟨own, hOwn, hMade⟩ :=
    exists_madeBy_of_opens commands footage report hSplitFirst hFirstOpens
  obtain ⟨later, hLater, hMadeNext⟩ :=
    exists_madeBy_of_opens commands footage report hSplit hOpens
  rw [hFirstCount, hHere] at hOwn
  rw [hCount, hNext] at hLater
  obtain rfl := Option.some.inj hOwn
  obtain rfl := Option.some.inj hLater
  refine ⟨_, c, after, hSplit, hCount, ?_⟩
  cases hScene : c.isScene with
  | true => rfl
  | false =>
      refine absurd ?_ hOther
      have hUnopened : ∀ d ∈ between, d.opens = false := by
        simpa [List.countP_eq_zero] using hBetween
      rw [hMade.scene, hMadeNext.scene, Command.latestScene_concat _ c, hScene,
        List.append_cons first b between,
        Command.latestScene_append_of_opens_eq_false _ hUnopened]
      rfl

end

/-- The segments are those of the opening commands, one each and in their order,
with the scene that is the latest by then and the step that is the latest since
that scene. So a new scene comes in with a scene command only, and a step that
is said before it is not heard of after it. -/
theorem segments_made_in_context (commands : List Command) (footage : Seconds)
    (report : Report) :
    let ordered := Command.inOrder commands
    let segments := (buildSegments commands footage report).1
    segments.length = ordered.countP Command.opens ∧
      (∀ before c after, ordered = before ++ c :: after → c.opens = true →
        ∃ s, segments[before.countP Command.opens]? = some s ∧ s.MadeBy before c) ∧
      (∀ k s next, segments[k]? = some s → segments[k + 1]? = some next →
        s.scene ≠ next.scene →
        ∃ before c after, ordered = before ++ c :: after ∧
          before.countP Command.opens = k + 1 ∧ c.isScene = true) ∧
      ∀ before scene between c after, ordered = before ++ scene :: (between ++ c :: after) →
        scene.isScene = true → c.opens = true →
        ∃ s, segments[(before ++ scene :: between).countP Command.opens]? = some s ∧
          ∀ n, s.step = some n → ∃ d ∈ between ++ [c], d.isStep = true ∧ d.number = some n := by
  intro ordered segments
  refine ⟨length_buildSegments commands footage report,
    fun before c after hSplit hOpens =>
      exists_madeBy_of_opens commands footage report hSplit hOpens,
    fun k s next hHere hNext hOther =>
      exists_isScene_of_scene_ne commands footage report hHere hNext hOther,
    fun before scene between c after hSplit hScene hOpens => ?_⟩
  have hAgain : ordered = (before ++ scene :: between) ++ c :: after := by
    rw [hSplit, List.append_assoc, List.cons_append]
  obtain ⟨s, hSegment, hMade⟩ := exists_madeBy_of_opens commands footage report hAgain hOpens
  refine ⟨s, hSegment, fun n hStep => ?_⟩
  rw [hMade.step, List.append_assoc, List.cons_append,
    Command.latestStep_append_of_isScene hScene] at hStep
  exact Command.exists_isStep_of_latestStep hStep

/-- The step of the first scene is over when the second one begins, and a mark
in between is in both. -/
theorem segments_made_in_two_scenes :
    let time (seconds : Nat) : Seconds := Seconds.ofInt seconds
    let start (seconds : Nat) (category : Category) (number : UInt32) : Command :=
      ⟨.start, time seconds, time seconds, category, some number, ""⟩
    let mark (seconds : Nat) (label : String) : Command :=
      ⟨.standalone, time seconds, time seconds, .mark, none, label⟩
    let commands := [start 1 .scene 4, start 2 .step 7, mark 3 "wide", start 5 .scene 5, mark 6 ""]
    let segments := (buildSegments commands (time 9) Report.empty).1
    (∃ s, segments[2]? = some s ∧ s.label = "mark: wide" ∧ s.scene = some 4 ∧ s.step = some 7) ∧
      (∃ s, segments[4]? = some s ∧ s.label = "mark" ∧ s.scene = some 5 ∧ s.step = none) := by
  intro time start mark commands segments
  have hOrder : Command.inOrder commands = commands := by
    refine Command.Ordered.inOrder_eq ?_
    simp [Command.Ordered, commands, start, mark, time]
    decide +kernel
  obtain ⟨-, hMade, -, -⟩ := segments_made_in_context commands (time 9) Report.empty
  obtain ⟨wide, hWide, hFirst⟩ :=
    hMade [start 1 .scene 4, start 2 .step 7] (mark 3 "wide") [start 5 .scene 5, mark 6 ""]
      hOrder rfl
  obtain ⟨plain, hPlain, hSecond⟩ :=
    hMade [start 1 .scene 4, start 2 .step 7, mark 3 "wide", start 5 .scene 5] (mark 6 "") []
      hOrder rfl
  exact ⟨⟨wide, hWide, hFirst.label, hFirst.scene, hFirst.step⟩,
    ⟨plain, hPlain, hSecond.label, hSecond.scene, hSecond.step⟩⟩

end RoughCut
