import RoughCut.Proofs.SceneContext
import RoughCut.Proofs.Seconds.Order

/-!
What depends on the order of scanning. Commands of different times may be
scanned in any order: they are taken by their times, and two lists are taken
alike exactly if they have the same commands at each time in the same sequence.
Commands that are scanned in the order of their times as numbers are taken as
they are scanned, but for the two zeros, which are one number and two times.
-/

namespace RoughCut

/-- What passes a test is the same in another order if it is so wherever some
member passes it. -/
theorem filter_eq_of_perm {α : Type} {p : α → Bool} {xs ys : List α} (hPerm : xs.Perm ys)
    (h : ∀ a ∈ xs, p a = true → xs.filter p = ys.filter p) : xs.filter p = ys.filter p := by
  by_cases hSome : ∃ a ∈ xs, p a = true
  · obtain ⟨a, hMem, hTest⟩ := hSome
    exact h a hMem hTest
  · have hNone : ∀ a ∈ xs, ¬ p a = true := fun a hMem hTest => hSome ⟨a, hMem, hTest⟩
    rw [List.filter_eq_nil_iff.mpr hNone,
      List.filter_eq_nil_iff.mpr fun a hMem => hNone a (hPerm.mem_iff.mpr hMem)]

namespace Command

variable {xs ys commands : List Command} {a b c d : Command}

/-- Both lists have the same commands, and those of each time in the same
sequence. -/
structure Rearranged (xs ys : List Command) : Prop where
  perm : xs.Perm ys
  sequence : ∀ time, (xs.filter fun c => c.start = time) = ys.filter fun c => c.start = time

/-- Every place in the order belongs to one time only. -/
theorem hasPlace_order (time : Seconds) :
    hasPlace time.order = fun c => decide (c.start = time) := by
  funext c
  exact decide_eq_decide.mpr ⟨Seconds.eq_of_order_eq, congrArg Seconds.order⟩

/-- It is enough to look at the times that commands have. -/
theorem rearranged_iff : Rearranged xs ys ↔ xs.Perm ys ∧ ∀ c ∈ xs,
    (xs.filter fun d => d.start = c.start) = ys.filter fun d => d.start = c.start := by
  constructor
  · intro h
    exact ⟨h.perm, fun c _ => h.sequence c.start⟩
  · rintro ⟨hPerm, hTimes⟩
    refine ⟨hPerm, fun time => filter_eq_of_perm hPerm fun c hMem hTime => ?_⟩
    rw [← of_decide_eq_true hTime]
    exact hTimes c hMem

instance (xs ys : List Command) : Decidable (Rearranged xs ys) :=
  decidable_of_iff _ rearranged_iff.symm

/-- The order of scanning decides between commands of one time, and only there. Nothing
else is left to it by a sort that is stable. -/
theorem inOrder_eq_iff : inOrder xs = inOrder ys ↔ Rearranged xs ys := by
  constructor
  · intro h
    refine ⟨(perm_inOrder xs).symm.trans (h ▸ perm_inOrder ys), fun time => ?_⟩
    simp only [← hasPlace_order]
    rw [← filter_inOrder, h, filter_inOrder]
  · intro h
    refine (ordered_inOrder xs).eq_of_filter_eq (ordered_inOrder ys) fun place => ?_
    rw [filter_inOrder, filter_inOrder]
    refine filter_eq_of_perm h.perm fun c _ hPlace => ?_
    rw [← of_decide_eq_true hPlace, hasPlace_order]
    exact h.sequence c.start

/-- Where no two commands have one time, only one order of them is possible. -/
theorem inOrder_eq_of_nodup (h : xs.Perm ys) (hTimes : (xs.map start).Nodup) :
    inOrder xs = inOrder ys := by
  have hPerm := (perm_inOrder xs).trans (h.trans (perm_inOrder ys).symm)
  refine hPerm.eq_of_pairwise ?_ (ordered_inOrder xs) (ordered_inOrder ys)
  intro a b ha hb hab hba
  have hFirst := (perm_inOrder xs).mem_iff.mp ha
  have hSecond := h.mem_iff.mpr ((perm_inOrder ys).mem_iff.mp hb)
  have hTime := Seconds.eq_of_order_eq (Int.le_antisymm hab hba)
  exact List.inj_on_of_nodup_map hTimes hFirst hSecond hTime

/-- Sorting by time, in whatever order of times, keeps the sequence within each. -/
theorem rearranged_mergeSort {le : Seconds → Seconds → Bool}
    (hTrans : ∀ x y z, le x y = true → le y z = true → le x z = true)
    (hTotal : ∀ x y, (le x y || le y x) = true) (commands : List Command) :
    Rearranged (commands.mergeSort fun a b => le a.start b.start) commands := by
  refine ⟨List.mergeSort_perm _ _, fun time => ?_⟩
  refine filter_mergeSort (fun a b c => hTrans a.start b.start c.start)
    (fun a b => hTotal a.start b.start) (fun a b ha hb => ?_) commands
  rw [of_decide_eq_true ha, of_decide_eq_true hb]
  simpa using hTotal time time

theorem inOrder_inOrder (commands : List Command) : inOrder (inOrder commands) = inOrder commands :=
  (ordered_inOrder commands).inOrder_eq

end Command

/-- What is built of commands depends on their order by time alone, so it may be sorted
before or not. -/
theorem buildSegments_eq_of_inOrder {xs ys : List Command}
    (h : Command.inOrder xs = Command.inOrder ys) (footage : Seconds) (report : Report) :
    buildSegments xs footage report = buildSegments ys footage report := by
  rw [buildSegments, buildSegments, h]

/-- Commands may be scanned in any order as long as those of one time, which is
the same time only in all its bits, keep their sequence. So nothing depends on
the order where all times differ, and nothing changes where the commands are
sorted by time before. -/
theorem buildSegments_rearranged (footage : Seconds) (report : Report) :
    (∀ xs ys, Command.Rearranged xs ys →
      buildSegments xs footage report = buildSegments ys footage report) ∧
    (∀ xs ys : List Command, xs.Perm ys → (xs.map Command.start).Nodup →
      buildSegments xs footage report = buildSegments ys footage report) ∧
    (∀ commands, buildSegments (Command.inOrder commands) footage report =
      buildSegments commands footage report) ∧
    ∀ (le : Seconds → Seconds → Bool) (commands : List Command),
      (∀ x y z, le x y = true → le y z = true → le x z = true) →
      (∀ x y, (le x y || le y x) = true) →
      buildSegments (commands.mergeSort fun a b => le a.start b.start) footage report =
        buildSegments commands footage report := by
  refine ⟨fun xs ys h => ?_, fun xs ys h hTimes => ?_, fun commands => ?_,
    fun le commands hTrans hTotal => ?_⟩
  · exact buildSegments_eq_of_inOrder (Command.inOrder_eq_iff.mpr h) footage report
  · exact buildSegments_eq_of_inOrder (Command.inOrder_eq_of_nodup h hTimes) footage report
  · exact buildSegments_eq_of_inOrder (Command.inOrder_inOrder commands) footage report
  · have h := Command.rearranged_mergeSort hTrans hTotal commands
    exact buildSegments_eq_of_inOrder (Command.inOrder_eq_iff.mpr h) footage report

/-- A NaN and both zeros are times of their own, and the mark and the scene that
have one time stay as they are. -/
theorem buildSegments_rearranged_zeros :
    let mark (time : Seconds) : Command := ⟨.standalone, time, time, .mark, none, ""⟩
    let scene (time : Seconds) : Command := ⟨.start, time, time, .scene, some 1, ""⟩
    let scanned := [mark .nan, mark .zero, scene .zero, scene Seconds.zero.neg]
    let later := [scene Seconds.zero.neg, mark .zero, scene .zero, mark .nan]
    Command.Rearranged scanned later ∧
      buildSegments scanned .infinity Report.empty = buildSegments later .infinity Report.empty := by
  intro mark scene scanned later
  have hRearranged : Command.Rearranged scanned later := by decide +kernel
  exact ⟨hRearranged, (buildSegments_rearranged _ _).1 _ _ hRearranged⟩

namespace Command

/-- No command is scanned after one that starts later as a number. The two zeros
are equal here. -/
def Chronological (commands : List Command) : Prop :=
  commands.Pairwise fun a b => a.start.le b.start = true

instance (commands : List Command) : Decidable (Chronological commands) :=
  inferInstanceAs (Decidable (commands.Pairwise fun a b => a.start.le b.start = true))

/-- A command at `-0.0` is scanned after one at `0.0`. -/
def ZerosCrossed (commands : List Command) : Prop :=
  ∃ a b, [a, b].Sublist commands ∧ a.start = .zero ∧ b.start = Seconds.zero.neg

/-- Sorting changes nothing exactly if the commands are in order already. -/
theorem inOrder_eq_self_iff : inOrder commands = commands ↔ Ordered commands :=
  ⟨fun h => h ▸ ordered_inOrder commands, Ordered.inOrder_eq⟩

/-- Commands that stand one before the other, and are not the other way round in time,
are not exchanged by sorting. -/
theorem sublist_inOrder (hPair : [a, b].Sublist commands) (h : a.start.order ≤ b.start.order) :
    [a, b].Sublist (inOrder commands) :=
  List.pair_sublist_mergeSort notAfter_trans notAfter_total (decide_eq_true h) hPair

/-- Of two commands the earlier one is taken first, however they are scanned. -/
theorem sublist_inOrder_of_lt (ha : a ∈ commands) (hb : b ∈ commands)
    (h : b.start.order < a.start.order) : [b, a].Sublist (inOrder commands) := by
  obtain ⟨before, after, hSplit⟩ :=
    List.append_of_mem ((perm_inOrder commands).mem_iff.mpr hb)
  have hOrdered := ordered_inOrder commands
  have hMem := (perm_inOrder commands).mem_iff.mpr ha
  rw [hSplit] at hOrdered hMem ⊢
  have hLater : a ∈ after := by
    rcases List.mem_append.mp hMem with hBefore | hAfter
    · have := (List.pairwise_append.mp hOrdered).2.2 a hBefore b List.mem_cons_self
      omega
    · rcases List.mem_cons.mp hAfter with rfl | hAfter
      · omega
      · exact hAfter
  exact List.sublist_append_of_sublist_right
    (List.cons_sublist_cons.mpr (List.singleton_sublist.mpr hLater))

/-- Where commands are in the order of their times, each is not after any that follows
it. -/
theorem Chronological.le_of_sublist (h : Chronological commands)
    (hPair : [a, b].Sublist commands) : a.start.le b.start = true :=
  List.pairwise_iff_forall_sublist.mp h hPair

/-- Commands that are in order as numbers are in the order in which they are
taken, unless the zeros are crossed. -/
theorem Chronological.ordered_iff (h : Chronological commands) :
    Ordered commands ↔ ¬ ZerosCrossed commands := by
  constructor
  · rintro hOrdered ⟨a, b, hPair, hZeros⟩
    have hCrossed := (Seconds.order_lt_iff_of_le (h.le_of_sublist hPair)).mpr hZeros
    have hOrder := List.pairwise_iff_forall_sublist.mp hOrdered hPair
    omega
  · intro hNone
    refine List.pairwise_iff_forall_sublist.mpr fun {a b} hPair => ?_
    have hLe := h.le_of_sublist hPair
    refine Int.not_lt.mp fun hCrossed => hNone ⟨a, b, hPair, ?_⟩
    exact (Seconds.order_lt_iff_of_le hLe).mp hCrossed

/-- The tags of a segment are said between its command and the next that opens
a segment, so no command that opens one is closer. -/
theorem mem_tagLabels_span {tag : String} :
    tag ∈ tagLabels (span commands) ↔
      ∃ between d rest, commands = between ++ d :: rest ∧ (∀ e ∈ between, e.opens = false) ∧
        d.isTag = true ∧ d.label = tag := by
  rw [mem_tagLabels]
  constructor
  · rintro ⟨d, hMem, hTag, hLabel⟩
    obtain ⟨between, rest, hSpan⟩ := List.append_of_mem hMem
    have hOpens : ∀ e ∈ span commands, e.opens = false := fun e he => by
      simpa using List.mem_takeWhile_imp he
    have hCommands : span commands ++ commands.dropWhile (fun c => !c.opens) = commands :=
      List.takeWhile_append_dropWhile
    refine ⟨between, d, rest ++ commands.dropWhile (fun c => !c.opens), ?_, fun e he => ?_, hTag,
      hLabel⟩
    · rw [← List.cons_append, ← List.append_assoc, ← hSpan, hCommands]
    · exact hOpens e (by rw [hSpan]; exact List.mem_append_left _ he)
  · rintro ⟨between, d, rest, rfl, hBetween, hTag, hLabel⟩
    have hOpens : d.opens = false := by simp_all [opens, isTag]
    refine ⟨d, ?_, hTag, hLabel⟩
    rw [span, List.takeWhile_append_of_pos (by simpa using hBetween)]
    simp [hOpens]

end Command

/-- The segment of an opening command is made by it, in the context of the
commands taken before, and has the tags that are said before the next one. -/
theorem exists_tagged_segment {commands before after : List Command} {c : Command}
    (h : Command.inOrder commands = before ++ c :: after) (hOpens : c.opens = true)
    (footage : Seconds) (report : Report) :
    ∃ s, (buildSegments commands footage report).1[before.countP Command.opens]? = some s ∧
      s.MadeBy before c ∧
      ∀ tag, tag ∈ s.tags.toList ↔ tag ∈ Command.tagLabels (Command.span after) := by
  obtain ⟨s, hMade, hMadeBy⟩ := exists_madeBy_of_opens commands footage report h hOpens
  obtain ⟨stop, hSegment⟩ := exists_segment_of_opens commands footage report h hOpens
  obtain rfl := Option.some.inj (hSegment.symm.trans hMade)
  exact ⟨_, hMade, hMadeBy, fun tag => Tags.mem_ofList⟩

/-- Commands that are scanned in the order of their times as numbers keep that
order, except that a command at `-0.0` is taken before any at `0.0`. Without such
a pair they are taken as they are scanned: the segments are those of the opening
commands in a row, and each tag goes to the closest of them before it. -/
theorem taken_as_scanned {commands : List Command} (h : Command.Chronological commands)
    (footage : Seconds) (report : Report) :
    let taken := Command.inOrder commands
    let built := buildSegments commands footage report
    (∀ a b, [a, b].Sublist commands →
      if a.start = .zero ∧ b.start = Seconds.zero.neg then [b, a].Sublist taken
      else [a, b].Sublist taken) ∧
    (taken = commands ↔ ¬ Command.ZerosCrossed commands) ∧
    (¬ Command.ZerosCrossed commands →
      (let t := commands.foldl Timeline.apply Timeline.initial
      built = (Segment.closeAll footage t.segments.reverse,
        report.addWarnings t.warnings.reverse)) ∧
      built.1.length = commands.countP Command.opens ∧
      ∀ before c after, commands = before ++ c :: after → c.opens = true →
        ∃ s, built.1[before.countP Command.opens]? = some s ∧ s.MadeBy before c ∧
          ∀ tag, tag ∈ s.tags.toList ↔
            ∃ between d rest, after = between ++ d :: rest ∧
              (∀ e ∈ between, e.opens = false) ∧ d.isTag = true ∧ d.label = tag) := by
  intro taken built
  have hSame : taken = commands ↔ ¬ Command.ZerosCrossed commands :=
    Command.inOrder_eq_self_iff.trans h.ordered_iff
  refine ⟨fun a b hPair => ?_, hSame, fun hNone => ?_⟩
  · have hLe := h.le_of_sublist hPair
    split
    · next hZeros =>
      exact Command.sublist_inOrder_of_lt (hPair.subset (by simp)) (hPair.subset (by simp))
        ((Seconds.order_lt_iff_of_le hLe).mpr hZeros)
    · next hKept =>
      refine Command.sublist_inOrder hPair (Int.not_lt.mp fun hLt => hKept ?_)
      exact (Seconds.order_lt_iff_of_le hLe).mp hLt
  · have hTaken : Command.inOrder commands = commands := hSame.mpr hNone
    refine ⟨?_, ?_, fun before c after hSplit hOpens => ?_⟩
    · simp only [built, buildSegments, hTaken]
    · rw [length_buildSegments, hTaken]
    · obtain ⟨s, hSegment, hMade, hTags⟩ :=
        exists_tagged_segment (hTaken.trans hSplit) hOpens footage report
      exact ⟨s, hSegment, hMade, fun tag => (hTags tag).trans Command.mem_tagLabels_span⟩

/-- The tag is said at the same number as the mark before it, and as the scene
after that, and goes to the mark. -/
theorem taken_as_scanned_tie :
    let command (kind : CommandKind) (category : Category) (time : Seconds) (label : String) :
        Command := ⟨kind, time, time, category, none, label⟩
    let mark := command .standalone .mark Seconds.zero.neg ""
    let tag := command .retroactive .apply .zero "best"
    let effect := command .standalone .effect .zero "zoom"
    let commands := [mark, tag, effect]
    let built := buildSegments commands (Seconds.ofInt 8) Report.empty
    Command.Chronological commands ∧ ¬ Command.ZerosCrossed commands ∧
      ∃ s, built.1[0]? = some s ∧ s.label = "mark" ∧ "best" ∈ s.tags.toList := by
  intro command mark tag effect commands built
  have hChronological : Command.Chronological commands := by decide +kernel
  have hNone : ¬ Command.ZerosCrossed commands := by
    rw [← hChronological.ordered_iff]
    decide +kernel
  obtain ⟨-, -, hTaken⟩ := taken_as_scanned hChronological (Seconds.ofInt 8) Report.empty
  obtain ⟨s, hSegment, hMade, hTags⟩ := (hTaken hNone).2.2 [] mark [tag, effect] rfl rfl
  exact ⟨hChronological, hNone, s, hSegment, hMade.label,
    (hTags "best").mpr ⟨[], tag, [effect], rfl, by simp, rfl, rfl⟩⟩

/-- A mark at `0.0`, a scene at `-0.0` and a tag are scanned in the order of their
times. The scene is taken first all the same: the mark is in it, and the tag that
is said of the scene goes to the mark. -/
theorem zeros_taken_crossed :
    let mark : Command := ⟨.standalone, .zero, .zero, .mark, none, "first"⟩
    let scene : Command :=
      ⟨.start, Seconds.zero.neg, Seconds.zero.neg, .scene, some 4, "second"⟩
    let tag : Command := ⟨.retroactive, .zero, .zero, .apply, none, "best"⟩
    let commands := [mark, scene, tag]
    let built := buildSegments commands (Seconds.ofInt 8) Report.empty
    (∀ c ∈ commands, c.start.isFinite = true) ∧ Command.Chronological commands ∧
      built.1.map Segment.label = ["second", "mark: first"] ∧
      built.1.map Segment.scene = [some 4, some 4] ∧
      built.1.map (fun s => s.tags.toList) = [[], ["best"]] := by
  intro mark scene tag commands built
  have hChronological : Command.Chronological commands := by decide +kernel
  -- a list in order with the same commands at each time is the one that is taken
  have hTaken : Command.inOrder commands = [scene, mark, tag] := by
    have hRearranged : Command.Rearranged commands [scene, mark, tag] := by decide +kernel
    have hOrdered : Command.Ordered [scene, mark, tag] := by decide +kernel
    rw [Command.inOrder_eq_iff.mpr hRearranged, hOrdered.inOrder_eq]
  refine ⟨by decide +kernel, hChronological, ?_⟩
  simp only [built, buildSegments, hTaken]
  decide +kernel

end RoughCut
