import RoughCut.Proofs.CommandOrder
import RoughCut.Proofs.CutStages
import RoughCut.Proofs.Tags
import RoughCut.Proofs.Text.NormalForm

/-!
A recording that goes on. What is said where no window is open, and no earlier
than what has been said, leaves the segments there are as they are. Only the
last of them may still get another end, and more tags.
-/

namespace RoughCut

/-- The second segment is the first one, perhaps with another end and with more
tags. -/
structure Segment.Continues (s later : Segment) : Prop where
  index : later.index = s.index
  start : later.start = s.start
  scene : later.scene = s.scene
  step : later.step = s.step
  label : later.label = s.label
  tags : ∀ tag ∈ s.tags.toList, tag ∈ later.tags.toList

namespace Segment

theorem Continues.refl (s : Segment) : s.Continues s :=
  ⟨rfl, rfl, rfl, rfl, rfl, fun _ h => h⟩

/-- A segment that gets one more tag still continues what it did before. -/
theorem Continues.addTag {s u : Segment} (h : s.Continues u) (tag : String) :
    s.Continues (u.addTag tag) where
  index := h.index
  start := h.start
  scene := h.scene
  step := h.step
  label := h.label
  tags := fun other hOther => Tags.mem_insert.mpr (Or.inr (h.tags other hOther))

/-- A segment goes on to continue another when both are closed, wherever that is. To
continue leaves open where a segment ends. -/
theorem Continues.close {s u : Segment} (h : s.Continues u) (footage footage' : Seconds)
    (next next' : Option Seconds) : (s.close footage next).Continues (u.close footage' next') :=
  ⟨h.index, h.start, h.scene, h.step, h.label, h.tags⟩

variable {s u : Segment} (earlier later : List Segment)

/-- Segments that were there before the last one start where they did, and so does the
one that continues it. -/
theorem start_getElem?_of_continues (h : s.Continues u) {i : Nat} (hi : i ≤ earlier.length) :
    (earlier ++ u :: later)[i]?.map start = (earlier ++ [s])[i]?.map start := by
  rcases Nat.lt_or_eq_of_le hi with hBefore | rfl
  · rw [List.getElem?_append_left hBefore, List.getElem?_append_left hBefore]
  · simp [h.start]

/-- Where a list of segments goes on from its last one, the ends of all before
that one stay, whatever the footage. -/
theorem closeAll_of_continues (h : s.Continues u) (footage footage' : Seconds) {i : Nat}
    {o : Segment} (hAt : (closeAll footage (earlier ++ [s]))[i]? = some o) :
    ∃ o', (closeAll footage' (earlier ++ u :: later))[i]? = some o' ∧ o.Continues o' ∧
      (i < earlier.length → o' = o) := by
  rw [getElem?_closeAll] at hAt
  obtain ⟨before, hBefore, rfl⟩ := Option.map_eq_some_iff.mp hAt
  obtain ⟨hLength, _⟩ := List.getElem?_eq_some_iff.mp hBefore
  rw [List.length_append, List.length_singleton] at hLength
  rw [getElem?_closeAll]
  rcases Nat.lt_or_eq_of_le (Nat.le_of_lt_succ hLength) with hFrozen | rfl
  · have hNext := start_getElem?_of_continues earlier later h (Nat.succ_le_of_lt hFrozen)
    obtain ⟨next, hThere⟩ : ∃ next, (earlier ++ [s])[i + 1]? = some next :=
      ⟨_, List.getElem?_eq_getElem (by simpa using hFrozen)⟩
    rw [List.getElem?_append_left hFrozen] at hBefore ⊢
    refine ⟨_, by rw [hBefore]; rfl, (Continues.refl before).close _ _ _ _, fun _ => ?_⟩
    rw [hNext, hThere]
    rfl
  · obtain rfl : s = before := by simpa using hBefore
    have hLast : (earlier ++ u :: later)[earlier.length]? = some u := by simp
    refine ⟨_, by rw [hLast]; rfl, h.close _ _ _ _, fun hFrozen => ?_⟩
    exact absurd hFrozen (Nat.lt_irrefl _)

end Segment

namespace Timeline

/-- The second timeline has the segments and warnings of the first, and
perhaps more. -/
structure Extends (t u : Timeline) : Prop where
  segments : ∀ s earlier, t.segments = s :: earlier →
    ∃ later s', u.segments = later ++ s' :: earlier ∧ s.Continues s'
  warnings : t.warnings <:+ u.warnings

theorem Extends.refl (t : Timeline) : t.Extends t where
  segments := fun s _ hSegments => ⟨[], s, hSegments, Segment.Continues.refl s⟩
  warnings := List.suffix_refl _

/-- A command extends a timeline. A tag may still come to the segment that was opened
last, so that one is only continued. -/
theorem Extends.apply {t u : Timeline} (h : t.Extends u) (c : Command) :
    t.Extends (u.apply c) := by
  constructor
  · intro s earlier hSegments
    obtain ⟨later, s', hNow, hContinues⟩ := h.segments s earlier hSegments
    rcases opens_or_isTag_or_deprecated c with hOpens | hTag | hDeprecated
    · rw [apply_of_opens hOpens, openSegment_segments, enter_segments, hNow]
      exact ⟨_ :: later, s', rfl, hContinues⟩
    · cases later with
      | nil =>
          rw [apply_tag hTag hNow]
          exact ⟨[], s'.addTag c.label, rfl, hContinues.addTag c.label⟩
      | cons first later =>
          rw [apply_tag hTag hNow]
          exact ⟨first.addTag c.label :: later, s', rfl, hContinues⟩
    · rw [apply_deprecated hDeprecated]
      exact ⟨later, s', hNow, hContinues⟩
  · rw [warnings_apply]
    exact h.warnings.trans (List.suffix_append _ _)

theorem Extends.foldl_apply {t u : Timeline} (h : t.Extends u) (commands : List Command) :
    t.Extends (commands.foldl Timeline.apply u) := by
  induction commands generalizing u with
  | nil => exact h
  | cons c commands ih => exact ih (h.apply c)

/-- A timeline that extends another has no fewer segments. -/
theorem Extends.length_le {t u : Timeline} (h : t.Extends u) :
    t.segments.length ≤ u.segments.length := by
  cases hSegments : t.segments with
  | nil => exact Nat.zero_le _
  | cons s earlier =>
      obtain ⟨later, s', hNow, _⟩ := h.segments s earlier hSegments
      rw [hNow, List.length_append, List.length_cons, List.length_cons]
      exact Nat.le_add_left _ _

/-- Only the end and the tags of the last segment are open. All segments before it are
closed by the starts of others, which are there already. -/
theorem Extends.closeAll {t u : Timeline} (h : t.Extends u) (footage footage' : Seconds) {i : Nat}
    {o : Segment} (hAt : (Segment.closeAll footage t.segments.reverse)[i]? = some o) :
    ∃ o', (Segment.closeAll footage' u.segments.reverse)[i]? = some o' ∧ o.Continues o' ∧
      (i + 1 < t.segments.length → o' = o) := by
  cases hSegments : t.segments with
  | nil =>
      rw [hSegments] at hAt
      cases hAt
  | cons s earlier =>
      obtain ⟨later, s', hNow, hContinues⟩ := h.segments s earlier hSegments
      rw [hSegments, List.reverse_cons] at hAt
      obtain ⟨o', hThere, hSame, hFrozen⟩ :=
        Segment.closeAll_of_continues earlier.reverse later.reverse hContinues footage footage' hAt
      refine ⟨o', ?_, hSame, fun hBefore => hFrozen ?_⟩
      · rw [hNow, List.reverse_append, List.reverse_cons, List.append_assoc]
        exact hThere
      · rw [List.length_cons] at hBefore
        rw [List.length_reverse]
        omega

/-- Later commands extend the timeline of the earlier ones, since they are put in order
behind them. -/
theorem ofCommands_append {xs ys : List Command}
    (h : ∀ x ∈ xs, ∀ y ∈ ys, x.start.order ≤ y.start.order) :
    (ofCommands xs).Extends (ofCommands (xs ++ ys)) := by
  rw [ofCommands, ofCommands, Command.inOrder_append h, List.foldl_append]
  exact (Extends.refl _).foldl_apply _

end Timeline

namespace Cut

variable {xs ys : List Token}

/-- The errors of both parts are there, those of one stage before those of the
next. -/
theorem errors_append (h : Token.AllClosed (Token.normalized xs)) (ys : List Token)
    (footage footage' : Seconds) :
    (ofTokens xs footage).report.errors.Sublist (ofTokens (xs ++ ys) footage').report.errors := by
  rw [errors_ofTokens, errors_ofTokens, Token.normalized_append, h.malformed_append,
    h.windows_append, List.filterMap_append]
  exact (List.sublist_append_left _ _).append (List.sublist_append_left _ _)

/-- A recording that goes on keeps its cut. Where no window is open and no
slate comes before those there are, the segments stay as they are, but for the
end and the tags of the last one; and so do the warnings and the errors. -/
theorem ofTokens_append (hClosed : Token.AllClosed (Token.normalized xs))
    (hLater : ∀ x ∈ Token.normalized xs, ∀ y ∈ Token.normalized ys, x.isSlate = true →
      y.isSlate = true → x.start.order ≤ y.start.order) (footage footage' : Seconds) :
    let cut := ofTokens xs footage
    let longer := ofTokens (xs ++ ys) footage'
    cut.segments.length ≤ longer.segments.length ∧
      (∀ i s, cut.segments[i]? = some s → ∃ s', longer.segments[i]? = some s' ∧
        s.Continues s' ∧ (i + 1 < cut.segments.length → s' = s)) ∧
      cut.report.warnings <+: longer.report.warnings ∧
      cut.report.errors.Sublist longer.report.errors := by
  intro cut longer
  have hOrder : ∀ x ∈ commands xs, ∀ y ∈ commands ys, x.start.order ≤ y.start.order := by
    intro x hx y hy
    obtain ⟨t, ht, hSlate, hStart⟩ := exists_slate_of_mem_commands hx
    obtain ⟨u, hu, hSlate', hStart'⟩ := exists_slate_of_mem_commands hy
    rw [← hStart, ← hStart']
    exact hLater t ht u hu hSlate hSlate'
  have hExtends : (Timeline.ofCommands (commands xs)).Extends
      (Timeline.ofCommands (commands (xs ++ ys))) := by
    rw [commands_append hClosed]
    exact Timeline.ofCommands_append hOrder
  have hLength : cut.segments.length = (Timeline.ofCommands (commands xs)).segments.length := by
    rw [segments_ofTokens, Segment.length_closeAll, List.length_reverse]
  refine ⟨?_, ?_, ?_, errors_append hClosed ys footage footage'⟩
  · rw [hLength, segments_ofTokens, Segment.length_closeAll, List.length_reverse]
    exact hExtends.length_le
  · intro i s hAt
    rw [hLength]
    exact hExtends.closeAll footage footage' hAt
  · rw [warnings_ofTokens, warnings_ofTokens]
    exact List.reverse_prefix.mpr hExtends.warnings

/-- What is said later closes the scene no earlier, and gives the mark a tag. A slate
that is left open at the end of it changes no segment. -/
theorem ofTokens_append_tag :
    let xs : List Token :=
      [⟨"Slate,", ⟨0x3FF0000000000000⟩⟩, ⟨"scene", ⟨0x3FF0000000000000⟩⟩,
        ⟨"one", ⟨0x3FF0000000000000⟩⟩, ⟨"done.", ⟨0x4014000000000000⟩⟩,
        ⟨"slate", ⟨0x4000000000000000⟩⟩, ⟨"mark", ⟨0x4000000000000000⟩⟩,
        ⟨"done", ⟨0x4000000000000000⟩⟩]
    let ys : List Token :=
      [⟨"slate", ⟨0x4000000000000000⟩⟩, ⟨"apply", ⟨0x3FF0000000000000⟩⟩,
        ⟨"wide", ⟨0x3FF0000000000000⟩⟩, ⟨"done", ⟨0x3FF0000000000000⟩⟩,
        ⟨"slate", ⟨0x4008000000000000⟩⟩]
    let cut := ofTokens xs ⟨0x4010000000000000⟩
    let longer := ofTokens (xs ++ ys) ⟨0x4018000000000000⟩
    cut.segments.length = 2 ∧ longer.segments[0]? = cut.segments[0]? ∧
      ∃ s s', cut.segments[1]? = some s ∧ longer.segments[1]? = some s' ∧ s.Continues s' := by
  intro xs ys cut longer
  have hLength : cut.segments.length = 2 := by
    rw [length_segments]
    decide +kernel
  have hClosed : Token.AllClosed (Token.normalized xs) := by decide +kernel
  have hLater : ∀ x ∈ Token.normalized xs, ∀ y ∈ Token.normalized ys, x.isSlate = true →
      y.isSlate = true → x.start.order ≤ y.start.order := by decide +kernel
  obtain ⟨_, hKept, _⟩ :=
    ofTokens_append hClosed hLater ⟨0x4010000000000000⟩ ⟨0x4018000000000000⟩
  have hAt (i : Nat) (hi : i < 2) : ∃ s, cut.segments[i]? = some s :=
    ⟨_, List.getElem?_eq_getElem (by omega)⟩
  obtain ⟨first, hFirst⟩ := hAt 0 (by decide)
  obtain ⟨last, hLast⟩ := hAt 1 (by decide)
  obtain ⟨first', hFirst', _, hFrozen⟩ := hKept 0 first hFirst
  obtain ⟨last', hLast', hContinues, _⟩ := hKept 1 last hLast
  obtain rfl : first' = first := hFrozen (by rw [hLength]; decide)
  exact ⟨hLength, hFirst'.trans hFirst.symm, last, last', hLast, hLast', hContinues⟩

end Cut

end RoughCut
