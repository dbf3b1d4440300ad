import RoughCut.Proofs.PathComponents

/-!
Where sidecars lie. The name of a transcript has a stem, and the sidecar is that stem with
another ending, joined to a given directory or to the parent of the transcript.
-/

namespace RoughCut.Storage

open RoughCut.Path

variable {p name parent stem : String}

/-- A path that ends in a name has a parent and a stem. -/
theorem exists_parent_stem (h : name? p = some name) :
    ∃ parent stem, parent? p = some parent ∧ stem? p = some stem ∧
      components p = components parent ++ [.name name] ∧ stem.toList = nameStem name.toList ∧
        '/' ∉ stem.toList := by
  obtain ⟨front, hSplit⟩ := name?_eq_some_iff.mp h
  obtain ⟨parent, hParent, hParts⟩ := exists_parent_of_splitName hSplit
  have hStem : stem? p = some (String.ofList (nameStem name.toList)) := by
    rw [stem?, hSplit]
    rfl
  have hSlash : '/' ∉ name.toList := by
    obtain ⟨hTrimmed, -⟩ := splitName_eq_some_iff.mp hSplit
    exact slash_not_mem_of_initial (hTrimmed ▸ trimIdle_initial (pieces p)) _ (by simp)
  rw [String.ofList_toList] at hParts
  refine ⟨parent, _, hParent, hStem, hParts, String.toList_ofList, ?_⟩
  rw [String.toList_ofList]
  exact fun hMem => hSlash (mem_of_mem_nameStem hMem)

/-- For a path that ends in a name, a sidecar is joined to the given directory or else
to the parent of the path, in one and the same way. -/
theorem sidecarPath_eq_join (hName : name? p = some name) (hParent : parent? p = some parent)
    (hStem : stem? p = some stem) (directory : Option String) :
    sidecarPath p directory = join (directory.getD parent) (stem ++ ".segments.json") := by
  cases directory with
  | none => simp only [sidecarPath, withName, hName, hParent, hStem, Option.getD_some,
      Option.getD_none]
  | some directory => simp only [sidecarPath, hStem, Option.getD_some]

theorem slash_not_mem_sidecar (h : '/' ∉ stem.toList) :
    '/' ∉ (stem ++ ".segments.json").toList := by
  rw [String.toList_append, List.mem_append, not_or]
  exact ⟨h, by decide⟩

end RoughCut.Storage
