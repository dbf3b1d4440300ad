import RoughCut.Proofs.CommandOrder
import RoughCut.Proofs.CutStages
import RoughCut.Proofs.Seconds.Order
import RoughCut.Proofs.SegmentClosing
import RoughCut.Proofs.Text.NormalForm

/-!
The segments of a cut tile the footage. They are counted from one, start in
the total order of times, and each ends where the next one starts, so that
there is no gap and no overlap whatever the order of the tokens was.
-/

namespace RoughCut

/-- The segments follow each other without gap or overlap, and the last one
ends with the footage, or at its own start where that is later. -/
structure Segment.Tiling (footage : Seconds) (segments : List Segment) : Prop where
  numbered : ∀ i s, segments[i]? = some s → s.index = i + 1
  ordered : segments.Pairwise fun a b => a.start.order ≤ b.start.order
  adjacent : ∀ i s next, segments[i]? = some s → segments[i + 1]? = some next →
    s.stop = next.start
  ends : ∀ s ∈ segments.getLast?, if s.start.le footage then s.stop.SameNumber footage
    else s.stop = s.start
  forward : ∀ s ∈ segments, s.start.le s.stop = true

/-- Closing makes a tiling of segments that are counted and in order. -/
theorem Segment.tiling_closeAll {footage : Seconds} {segments : List Segment}
    (hNumbered : ∀ i s, segments[i]? = some s → s.index = i + 1)
    (hOrdered : segments.Pairwise fun a b => a.start.order ≤ b.start.order)
    (hNumbers : ∀ s ∈ segments, s.start.isNaN = false) (hFootage : footage.isNaN = false) :
    Tiling footage (closeAll footage segments) := by
  refine ⟨?_, ?_, ?_, ?_, ?_⟩
  · intro i s h
    obtain ⟨o, hOpen, hIndex, _⟩ := exists_of_getElem?_closeAll _ _ h
    rw [hIndex, hNumbered i o hOpen]
  · rw [← List.pairwise_map (R := fun a b : Seconds => a.order ≤ b.order), map_start_closeAll,
      List.pairwise_map]
    exact hOrdered
  · intro i s next h hNext
    obtain ⟨o, _, _, _, hStop⟩ := exists_of_getElem?_closeAll _ _ h
    obtain ⟨n, hOpen, _, hStart, _⟩ := exists_of_getElem?_closeAll _ _ hNext
    rw [hStop, hStart, hOpen]
    rfl
  · intro s h
    rw [List.getLast?_eq_getElem?, length_closeAll] at h
    obtain ⟨o, hOpen, _, hStart, hStop⟩ := exists_of_getElem?_closeAll _ _ h
    have hNone : segments[segments.length - 1 + 1]? = none :=
      List.getElem?_eq_none (by omega)
    rw [hNone] at hStop
    have hNumber := hNumbers o (List.mem_of_getElem? hOpen)
    rw [hStart, show s.stop = footage.max o.start from hStop]
    split
    · next hLe => exact Seconds.max_sameNumber_left hLe
    · next hLater => exact Seconds.max_eq_right hFootage hNumber (by simpa using hLater)
  · intro s hMem
    obtain ⟨i, h⟩ := List.mem_iff_getElem?.mp hMem
    obtain ⟨o, hOpen, _, hStart, hStop⟩ := exists_of_getElem?_closeAll _ _ h
    have hNumber := hNumbers o (List.mem_of_getElem? hOpen)
    rw [hStart, hStop]
    cases hNext : segments[i + 1]? with
    | none => exact Seconds.le_max_right hFootage hNumber
    | some n =>
        obtain ⟨hHere, rfl⟩ := List.getElem?_eq_some_iff.mp hOpen
        obtain ⟨hThere, rfl⟩ := List.getElem?_eq_some_iff.mp hNext
        exact Seconds.le_of_order_le hNumber (hNumbers _ (List.mem_of_getElem? hNext))
          (List.pairwise_iff_getElem.mp hOrdered i (i + 1) hHere hThere (by omega))

namespace Cut

/-- Tokens in any order, with times that are numbers, are cut into segments
that tile the footage. -/
theorem segments_tile {tokens : List Token} {footage : Seconds}
    (hTokens : ∀ t ∈ tokens, t.start.isNaN = false) (hFootage : footage.isNaN = false) :
    Segment.Tiling footage (ofTokens tokens footage).segments := by
  have hNumbered := Timeline.numbered_foldl_apply (Command.inOrder (commands tokens))
    (t := Timeline.initial) trivial
  have hStarts := Timeline.starts_foldl_apply (Command.inOrder (commands tokens)) Timeline.initial
  rw [segments_ofTokens, Timeline.ofCommands]
  refine Segment.tiling_closeAll (fun i s h => hNumbered.index_eq h) ?_ (fun s hMem => ?_) hFootage
  · rw [← List.pairwise_map (R := fun a b : Seconds => a.order ≤ b.order), hStarts]
    exact List.pairwise_map.mpr
      ((Command.ordered_inOrder (commands tokens)).sublist List.filter_sublist)
  · have hStart : s.start ∈ _ := List.mem_map_of_mem hMem
    rw [hStarts] at hStart
    obtain ⟨c, hOpens, hSame⟩ := List.mem_map.mp hStart
    have hCommand := (Command.perm_inOrder _).mem_iff.mp (List.mem_filter.mp hOpens).1
    obtain ⟨w, hWord, _, hSlate⟩ := exists_slate_of_mem_commands hCommand
    obtain ⟨t, hToken, hSpoken⟩ := Token.exists_start_of_mem_normalized hWord
    rw [← hSame, ← hSlate, ← hSpoken]
    exact hTokens t hToken

/-- The later of two windows is spoken first: there are two segments all the same. -/
theorem segments_tile_reversed :
    let tokens : List Token :=
      [⟨"Slate,", ⟨0x4014000000000000⟩⟩, ⟨"mark", ⟨0x4016000000000000⟩⟩,
        ⟨"done", ⟨0x4018000000000000⟩⟩, ⟨"slate", ⟨0x3FF0000000000000⟩⟩,
        ⟨"scene", ⟨0x3FF8000000000000⟩⟩, ⟨"two", ⟨0x3FF8000000000000⟩⟩,
        ⟨"done.", ⟨0x4000000000000000⟩⟩]
    let footage : Seconds := ⟨0x4008000000000000⟩
    (∀ t ∈ tokens, t.start.isNaN = false) ∧ footage.isNaN = false ∧
      (ofTokens tokens footage).segments.length = 2 ∧
      Segment.Tiling footage (ofTokens tokens footage).segments := by
  intro tokens footage
  have hTokens : ∀ t ∈ tokens, t.start.isNaN = false := by decide
  have hLength : (ofTokens tokens footage).segments.length = 2 := by
    rw [length_segments]
    decide +kernel
  exact ⟨hTokens, rfl, hLength, segments_tile hTokens rfl⟩

end Cut

end RoughCut
