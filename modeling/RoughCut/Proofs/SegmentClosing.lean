import Mathlib.Data.List.Basic
import RoughCut.Segment
import RoughCut.Proofs.TimelineSteps

/-!
The ends of segments. Closing changes nothing else in a segment, and it looks
at nothing but where segments start.
-/

namespace RoughCut.Segment

variable (footage : Seconds) (segments : List Segment)

/-- A segment is closed by the start of the one after it, if there is one. All that is
known of the ends of segments comes from this. -/
theorem getElem?_closeAll (i : Nat) :
    (closeAll footage segments)[i]? =
      segments[i]?.map fun s => s.close footage (segments[i + 1]?.map Segment.start) := by
  rw [closeAll, List.getElem?_zipWith]
  cases hHere : segments[i]? with
  | none => rfl
  | some s =>
      obtain ⟨hLength, _⟩ := List.getElem?_eq_some_iff.mp hHere
      have hStarts :
          ((segments.drop 1).map fun s => some s.start).length = segments.length - 1 := by
        simp
      have hNext : (((segments.drop 1).map fun s => some s.start) ++ [none])[i]? =
          some (segments[i + 1]?.map Segment.start) := by
        by_cases hLast : i + 1 < segments.length
        · rw [List.getElem?_append_left (by omega), List.getElem?_map, List.getElem?_drop,
            Nat.add_comm 1 i, List.getElem?_eq_getElem hLast]
          rfl
        · have hEnd : segments[i + 1]? = none := List.getElem?_eq_none (by omega)
          rw [List.getElem?_append_right (by omega), hEnd,
            show i - ((segments.drop 1).map fun s => some s.start).length = 0 by omega]
          rfl
      rw [hNext]
      rfl

/-- What a closed segment was before: the same but for its end. -/
theorem exists_of_getElem?_closeAll {i : Nat} {s : Segment}
    (h : (closeAll footage segments)[i]? = some s) :
    ∃ o, segments[i]? = some o ∧ s.index = o.index ∧ s.start = o.start ∧
      s.stop = (segments[i + 1]?.map Segment.start).getD (footage.max o.start) := by
  rw [getElem?_closeAll] at h
  obtain ⟨o, hOpen, rfl⟩ := Option.map_eq_some_iff.mp h
  exact ⟨o, hOpen, rfl, rfl, rfl⟩

theorem length_closeAll : (closeAll footage segments).length = segments.length := by
  cases segments with
  | nil => rfl
  | cons s ss => simp [closeAll]

/-- When segments are closed they keep their starts. -/
theorem map_start_closeAll :
    (closeAll footage segments).map Segment.start = segments.map Segment.start := by
  refine List.ext_getElem? fun i => ?_
  rw [List.getElem?_map, getElem?_closeAll, List.getElem?_map, Option.map_map]
  rfl

/-- Tags have no part in closing, so they may be put on before or after it. -/
theorem closeAll_modify_addTag (tag : String) (k : Nat) :
    closeAll footage (segments.modify k (addTag tag)) =
      (closeAll footage segments).modify k (addTag tag) := by
  refine List.ext_getElem? fun i => ?_
  have hStart (j : Nat) : (segments.modify k (addTag tag))[j]?.map Segment.start =
      segments[j]?.map Segment.start := by
    rw [List.getElem?_modify]
    cases segments[j]? with
    | none => rfl
    | some s => by_cases h : k = j <;> simp [h, addTag]
  rw [getElem?_closeAll, hStart, List.getElem?_modify, List.getElem?_modify, getElem?_closeAll]
  cases segments[i]? with
  | none => rfl
  | some s => by_cases h : k = i <;> simp [h, addTag, close]

end RoughCut.Segment
