import RoughCut.Proofs.OpenedSegments
import RoughCut.Proofs.Seconds.Order
import RoughCut.Proofs.Spelling
import RoughCut.Proofs.WindowPlaces

/-!
Transcripts whose words are in the order of their times. The commands of such
a transcript are taken as they are spoken, so its segments follow the slates
that begin them, and none of them leaves the stretch from the first slate to the
end of the footage, where the last one ends.
-/

namespace RoughCut

namespace Token

variable {tokens : List Token} {t first last : Token}

/-- No token comes after one that starts later. -/
def Chronological (tokens : List Token) : Prop :=
  tokens.Pairwise fun a b => a.start.order ≤ b.start.order

theorem Chronological.head_le (h : Chronological tokens) (hFirst : tokens.head? = some first)
    (hMem : t ∈ tokens) : first.start.order ≤ t.start.order := by
  obtain ⟨rest, rfl⟩ := List.head?_eq_some_iff.mp hFirst
  rcases List.mem_cons.mp hMem with rfl | hRest
  · exact Int.le_refl _
  · exact (List.pairwise_cons.mp h).1 t hRest

theorem Chronological.le_last (h : Chronological tokens) (hLast : tokens.getLast? = some last)
    (hMem : t ∈ tokens) : t.start.order ≤ last.start.order := by
  obtain ⟨rest, rfl⟩ := List.getLast?_eq_some_iff.mp hLast
  rcases List.mem_append.mp hMem with hRest | hSame
  · exact (List.pairwise_append.mp h).2.2 t hRest last (by simp)
  · exact Int.le_of_eq (by rw [List.mem_singleton.mp hSame])

/-- Words that are left out leave the others in their order. -/
theorem Chronological.normalized (h : Chronological tokens) :
    Chronological (normalized tokens) := by
  refine h.filterMap normal? fun a b hOrder v hv w hw => ?_
  obtain ⟨-, rfl⟩ := normal?_eq_some_iff.mp hv
  obtain ⟨-, rfl⟩ := normal?_eq_some_iff.mp hw
  exact hOrder

theorem Chronological.filter (h : Chronological tokens) (p : Token → Bool) :
    Chronological (tokens.filter p) :=
  List.Pairwise.filter p h

/-- Windows are in the order of their slates. -/
theorem Chronological.windows (h : Chronological tokens) :
    (windows tokens).Pairwise fun v w => v.start.order ≤ w.start.order := by
  have hStarts : ((outcomes tokens).map (Sum.elim Window.start Issue.start)).Pairwise
      fun x y => x.order ≤ y.order := by
    rw [start_outcomes]
    exact List.pairwise_map.mpr (h.filter isSlate)
  refine (List.pairwise_map.mp hStarts).filterMap Sum.getLeft? fun a b hOrder v hv w hw => ?_
  obtain rfl := Sum.getLeft?_eq_some_iff.mp hv
  obtain rfl := Sum.getLeft?_eq_some_iff.mp hw
  exact hOrder

end Token

namespace Cut

variable {tokens : List Token}

/-- What was said in order gives commands in order, so nothing has to be sorted. A
command starts at the slate of its window. -/
theorem ordered_commands (h : Token.Chronological tokens) :
    Command.Ordered (commands tokens) := by
  rw [commands_eq]
  refine h.normalized.windows.filterMap Window.command? fun v w hOrder b hb c hc => ?_
  rw [(Command.of_ofPayload (Window.command?_eq_some_iff.mp hb)).1,
    (Command.of_ofPayload (Window.command?_eq_some_iff.mp hc)).1]
  exact hOrder

end Cut

namespace Segment

variable {segments : List Segment} {low footage : Seconds}

/-- Segments that start on a stretch up to the end of the footage end on it. -/
theorem within_closeAll
    (h : ∀ s ∈ segments, low.le s.start = true ∧ s.start.le footage = true) {s : Segment}
    (hMem : s ∈ closeAll footage segments) :
    ∀ x ∈ [s.start, s.stop], low.le x = true ∧ x.le footage = true := by
  obtain ⟨i, hAt⟩ := List.mem_iff_getElem?.mp hMem
  obtain ⟨o, hOpen, -, hStart, hStop⟩ := exists_of_getElem?_closeAll _ _ hAt
  have hHere := h o (List.mem_of_getElem? hOpen)
  have hEnd : low.le s.stop = true ∧ s.stop.le footage = true := by
    cases hNext : segments[i + 1]? with
    | some next =>
        rw [hStop, hNext]
        exact h next (List.mem_of_getElem? hNext)
    | none =>
        obtain ⟨hAbove, hBelow⟩ := Seconds.max_sameNumber_left hHere.2
        rw [hStop, hNext]
        exact ⟨Seconds.le_trans hHere.1 (Seconds.le_trans hHere.2 hBelow), hAbove⟩
  simpa [hStart] using ⟨hHere, hEnd⟩

/-- The last of segments that start before the end of the footage ends there. -/
theorem stop_last_closeAll (h : ∀ s ∈ segments, s.start.le footage = true) {s : Segment}
    (hLast : (closeAll footage segments).getLast? = some s) : s.stop.SameNumber footage := by
  rw [List.getLast?_eq_getElem?, length_closeAll] at hLast
  obtain ⟨o, hOpen, -, -, hStop⟩ := exists_of_getElem?_closeAll _ _ hLast
  have hNone : segments[segments.length - 1 + 1]? = none := List.getElem?_eq_none (by omega)
  rw [hStop, hNone]
  exact Seconds.max_sameNumber_left (h o (List.mem_of_getElem? hOpen))

/-- The segment is opened by the command of the window at this place. -/
def CreatedAt (tokens : List Token) (place : Nat) (s : Segment) : Prop :=
  ∃ w c, Token.WindowAt tokens place w ∧ w.command? = some c ∧ c.Opened s

end Segment

namespace Transcript

variable {t : Transcript}

/-- The slates among the words of the transcript. -/
def slates (t : Transcript) : List Token :=
  (Token.normalized t.tokens).filter Token.isSlate

/-- A transcript is cut as its tokens are, with the end of its footage. -/
theorem cut_eq (t : Transcript) : t.cut = Cut.ofTokens t.tokens t.endOfFootage := by
  rw [cut, words, Token.words_eq_normalized]
  exact Cut.ofTokens_eq_of_normalized (Token.normalized_normalized t.tokens) t.endOfFootage

/-- The segments of a transcript are those of its timeline, the last of which ends with
the footage. -/
theorem segments_cut (t : Transcript) : t.cut.segments = Segment.closeAll t.endOfFootage
    (Timeline.ofCommands (Cut.commands t.tokens)).segments.reverse := by
  rw [cut_eq, Cut.segments_ofTokens]

/-- Each segment starts at a slate of the transcript. -/
theorem exists_slate_of_mem_segments {s : Segment} (h : s ∈ t.cut.segments) :
    ∃ slate ∈ t.slates, slate.start = s.start := by
  rw [cut_eq] at h
  exact Cut.exists_slate_of_mem_segments h

theorem isNaN_of_mem_slates (hNumbers : ∀ token ∈ t.tokens, token.start.isNaN = false)
    {slate : Token} (h : slate ∈ t.slates) : slate.start.isNaN = false := by
  obtain ⟨token, hMem, hStart⟩ := Token.exists_start_of_mem_normalized (List.mem_filter.mp h).1
  rw [← hStart]
  exact hNumbers token hMem

/-- No slate is spoken after the end of the footage. That end is the given length, or
the time of the last token where no length is given. -/
theorem slate_le_endOfFootage (hNumbers : ∀ token ∈ t.tokens, token.start.isNaN = false)
    (hOrder : Token.Chronological t.tokens)
    (hDuration : t.duration.le Seconds.zero = true ∨
      ∀ last ∈ t.slates.getLast?, last.start.le t.duration = true)
    {slate : Token} (h : slate ∈ t.slates) : slate.start.le t.endOfFootage = true := by
  have hSlate := isNaN_of_mem_slates hNumbers h
  unfold endOfFootage
  split
  · next hKnown =>
    rcases hDuration with hUnknown | hLong
    · rw [Seconds.lt_eq_false_of_le hUnknown] at hKnown
      cases hKnown
    · have hLast := List.getLast?_eq_some_getLast (List.ne_nil_of_mem h)
      have hLater := (hOrder.normalized.filter Token.isSlate).le_last hLast h
      have hNumber := isNaN_of_mem_slates hNumbers (List.mem_of_getLast? hLast)
      exact Seconds.le_trans (Seconds.le_of_order_le hSlate hNumber hLater) (hLong _ hLast)
  · obtain ⟨token, hMem, hStart⟩ := Token.exists_start_of_mem_normalized (List.mem_filter.mp h).1
    have hLast := List.getLast?_eq_some_getLast (List.ne_nil_of_mem hMem)
    rw [hLast, Option.map_some, Option.getD_some]
    refine Seconds.le_of_order_le hSlate (hNumbers _ (List.mem_of_getLast? hLast)) ?_
    rw [← hStart]
    exact hOrder.le_last hLast hMem

/-- The segments of a transcript that is in order are created at places that
follow each other. -/
theorem exists_places_segments (hOrder : Token.Chronological t.tokens) :
    ∃ places : List Nat, places.Pairwise (· < ·) ∧
      List.Forall₂ (Segment.CreatedAt t.words) places t.cut.segments := by
  obtain ⟨places, hPlaces, hWindows⟩ := Token.exists_places_windows (Token.normalized t.tokens)
  have hCommands : (Cut.commands t.tokens).filter Command.opens =
      (Token.windows (Token.normalized t.tokens)).filterMap fun w =>
        w.command?.filter Command.opens := by
    rw [Cut.commands_eq, List.filter_filterMap]
  obtain ⟨kept, hKept, hKeys⟩ :=
    exists_sublist_filterMap (f := fun w => w.command?.filter Command.opens) hWindows
  have hOpened := Cut.opened_segments t.tokens t.endOfFootage
  rw [(Cut.ordered_commands hOrder).inOrder_eq, hCommands] at hOpened
  refine ⟨kept, hPlaces.sublist hKept, ?_⟩
  rw [cut_eq, words, Token.words_eq_normalized]
  refine (forall₂_comp hKeys hOpened).imp ?_
  rintro place s ⟨c, ⟨w, hWindow, hCommand⟩, hOpens⟩
  exact ⟨w, c, hWindow, (Option.filter_eq_some_iff.mp hCommand).1, hOpens⟩

/-- The segments of a transcript in the order of its times, with a length that is
unknown or at least the time of the last slate, end with the footage: where it is
known at that length, and else where the last token starts, whether there is a
word in it or not. All of them are on the stretch from the first slate to that
end, in the order in which the slates that create them are spoken. -/
theorem cut_ends_with_footage (hNumbers : ∀ token ∈ t.tokens, token.start.isNaN = false)
    (hOrder : Token.Chronological t.tokens)
    (hDuration : t.duration.le Seconds.zero = true ∨
      ∀ last ∈ t.slates.getLast?, last.start.le t.duration = true) :
    (∀ s ∈ t.cut.segments.getLast?, s.stop.SameNumber t.endOfFootage ∧
      if Seconds.zero.lt t.duration then s.stop.SameNumber t.duration
      else ∃ token, t.tokens.getLast? = some token ∧ s.stop.SameNumber token.start) ∧
    (∀ s ∈ t.cut.segments, ∃ first, t.slates.head? = some first ∧
      ∀ x ∈ [s.start, s.stop], first.start.le x = true ∧ x.le t.endOfFootage = true) ∧
    ∃ places : List Nat, places.Pairwise (· < ·) ∧
      List.Forall₂ (Segment.CreatedAt t.words) places t.cut.segments := by
  have hEnds : ∀ s ∈ (Timeline.ofCommands (Cut.commands t.tokens)).segments.reverse,
      s.start.le t.endOfFootage = true := by
    intro s hMem
    obtain ⟨slate, hSlate, hStart⟩ := Cut.exists_slate_of_mem_timeline (List.mem_reverse.mp hMem)
    rw [← hStart]
    exact slate_le_endOfFootage hNumbers hOrder hDuration hSlate
  refine ⟨fun s hLast => ?_, fun s hMem => ?_, exists_places_segments hOrder⟩
  · obtain ⟨slate, hSlate, -⟩ := exists_slate_of_mem_segments (List.mem_of_getLast? hLast)
    obtain ⟨token, hToken, -⟩ :=
      Token.exists_start_of_mem_normalized (List.mem_filter.mp hSlate).1
    rw [segments_cut] at hLast
    have hStop := Segment.stop_last_closeAll hEnds hLast
    refine ⟨hStop, ?_⟩
    split
    · next hKnown => rwa [endOfFootage, if_pos hKnown] at hStop
    · next hUnknown =>
      have hFinal := List.getLast?_eq_some_getLast (List.ne_nil_of_mem hToken)
      refine ⟨_, hFinal, ?_⟩
      rwa [endOfFootage, if_neg hUnknown, hFinal] at hStop
  · obtain ⟨slate, hSlate, -⟩ := exists_slate_of_mem_segments hMem
    have hFirst := List.head?_eq_some_head (List.ne_nil_of_mem hSlate)
    refine ⟨_, hFirst, Segment.within_closeAll (fun o hOpen => ⟨?_, hEnds o hOpen⟩)
      (segments_cut t ▸ hMem)⟩
    obtain ⟨own, hOwn, hStart⟩ := Cut.exists_slate_of_mem_timeline (List.mem_reverse.mp hOpen)
    rw [← hStart]
    exact Seconds.le_of_order_le (isNaN_of_mem_slates hNumbers (List.mem_of_head? hFirst))
      (isNaN_of_mem_slates hNumbers hOwn)
      ((hOrder.normalized.filter Token.isSlate).head_le hFirst hOwn)

/-- Without a length the last segment lasts until the last token, a dash in
which no word is said. -/
theorem cut_ends_with_footage_unknown :
    let t : Transcript :=
      ⟨[⟨"Slate,", ⟨0x3FF0000000000000⟩⟩, ⟨"scene", ⟨0x3FF0000000000000⟩⟩,
          ⟨"one", ⟨0x3FF0000000000000⟩⟩, ⟨"done.", ⟨0x4000000000000000⟩⟩,
          ⟨"slate", ⟨0x4008000000000000⟩⟩, ⟨"mark", ⟨0x4008000000000000⟩⟩,
          ⟨"done", ⟨0x4010000000000000⟩⟩, ⟨"--", ⟨0x4024000000000000⟩⟩],
        Seconds.zero⟩
    let first : Segment :=
      ⟨1, ⟨0x3FF0000000000000⟩, ⟨0x4008000000000000⟩, some 1, none, "", Tags.empty⟩
    let last : Segment :=
      ⟨2, ⟨0x4008000000000000⟩, ⟨0x4024000000000000⟩, some 1, none, "mark", Tags.empty⟩
    t.cut.segments = [first, last] ∧ last.stop.SameNumber t.endOfFootage ∧
      (∃ token, t.tokens.getLast? = some token ∧ last.stop.SameNumber token.start) ∧
      ∃ places : List Nat, places.Pairwise (· < ·) ∧
        List.Forall₂ (Segment.CreatedAt t.words) places [first, last] := by
  intro t first last
  let scene : Command :=
    ⟨.start, ⟨0x3FF0000000000000⟩, ⟨0x4000000000000000⟩, .scene, some 1, ""⟩
  let mark : Command :=
    ⟨.standalone, ⟨0x4008000000000000⟩, ⟨0x4010000000000000⟩, .mark, none, ""⟩
  have hCommands : Cut.commands t.tokens = [scene, mark] := by decide +kernel
  have hTimes : Command.Ordered [scene, mark] := by simp [Command.Ordered, scene, mark]; decide
  have hSegments : t.cut.segments = [first, last] := by
    rw [segments_cut, Timeline.ofCommands, hCommands, hTimes.inOrder_eq]
    decide +kernel
  have hOrder : Token.Chronological t.tokens := by
    simp [Token.Chronological, t]
    decide
  obtain ⟨hEnds, -, hPlaces⟩ :=
    cut_ends_with_footage (t := t) (by decide) hOrder (Or.inl (by decide))
  rw [hSegments] at hEnds hPlaces
  obtain ⟨hStop, hToken⟩ := hEnds last rfl
  exact ⟨hSegments, hStop, hToken, hPlaces⟩

end Transcript

end RoughCut
