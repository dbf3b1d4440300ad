import Mathlib.Data.List.Sort
import RoughCut.Tags

/-!
Sets of tags as sets: a set is what it has as members, so the order in which
tags are put into it has no part in what it is.
-/

namespace RoughCut.Tags

theorem mem_insert {tags : Tags} {s x : String} :
    x ∈ (tags.insert s).toList ↔ x = s ∨ x ∈ tags.toList :=
  mem_insertList

/-- Sets with the same members are listed in the same way. The list is sorted and has no
member twice, which leaves no choice. -/
theorem eq_of_mem_iff {a b : Tags} (h : ∀ x, x ∈ a.toList ↔ x ∈ b.toList) : a = b :=
  Tags.ext (a.increasing.eq_of_mem_iff b.increasing h)

/-- Tags are a set, so it does not matter in which order they are put in. -/
theorem insert_comm (tags : Tags) (s t : String) :
    (tags.insert s).insert t = (tags.insert t).insert s := by
  refine eq_of_mem_iff fun x => ?_
  simp only [mem_insert]
  exact or_left_comm

/-- The tags that were put in one after the other are those that are there in the end,
beside the ones from before. -/
theorem mem_foldl_insert {labels : List String} {tags : Tags} {x : String} :
    x ∈ (labels.foldl insert tags).toList ↔ x ∈ labels ∨ x ∈ tags.toList := by
  induction labels generalizing tags with
  | nil => simp
  | cons label labels ih =>
      rw [List.foldl_cons, ih, mem_insert, List.mem_cons, or_left_comm, or_assoc]

theorem mem_ofList {labels : List String} {x : String} :
    x ∈ (ofList labels).toList ↔ x ∈ labels := by
  rw [ofList, mem_foldl_insert]
  simp [empty]

end RoughCut.Tags
