import Mathlib.Tactic.Common
import RoughCut.Proofs.TreeGrowth
import RoughCut.Storage

/-!
The names that paths end in. A file is reached by a path that ends in its name, and
the name of its sidecar is another, so a sidecar never takes the place of its own
transcript.
-/

namespace RoughCut

namespace Text

/-- A text up to the last of a character, here in reverse, and what follows that. -/
theorem exists_partLast?_eq (c : Char) (s : List Char) :
    ∃ front after : List Char, s = front.reverse ++ after ∧ c ∉ after ∧
      (∀ d ∈ front.head?, d = c) ∧
      partLast? c s = if front.tail = [] then none else some (front.tail.reverse, after) := by
  have hParts :
      s = (s.reverse.dropWhile (· ≠ c)).reverse ++ (s.reverse.takeWhile (· ≠ c)).reverse := by
    rw [← List.reverse_append, List.takeWhile_append_dropWhile, List.reverse_reverse]
  have hHead := List.head?_dropWhile_not (fun d : Char => decide (d ≠ c)) s.reverse
  have hAfter : c ∉ (s.reverse.takeWhile (· ≠ c)).reverse := by
    rw [List.mem_reverse]
    exact fun hMem => by simpa using List.mem_takeWhile_imp hMem
  unfold partLast?
  dsimp only
  generalize (s.reverse.takeWhile (· ≠ c)).reverse = after at *
  generalize s.reverse.dropWhile (· ≠ c) = front at *
  have hFront : s.take (s.length - after.length) = front.reverse := by
    rw [hParts]
    simp
  refine ⟨front, after, hParts, hAfter, ?_, ?_⟩
  · cases front with
    | nil => simp
    | cons d front => simpa using hHead
  · rw [hFront, List.dropLast_reverse]
    simp only [List.reverse_eq_nil_iff]

/-- What follows the last of a character does not have it, and something stands before. -/
theorem of_partLast? {c : Char} {s before after : List Char}
    (h : partLast? c s = some (before, after)) :
    s = before ++ c :: after ∧ c ∉ after ∧ before ≠ [] := by
  obtain ⟨front, rest, rfl, hRest, hHead, hParts⟩ := exists_partLast?_eq c s
  rw [hParts] at h
  split_ifs at h with hNone
  cases h
  cases front with
  | nil => exact absurd rfl hNone
  | cons d front =>
      obtain rfl : d = c := hHead d rfl
      exact ⟨by simp, hRest, by simpa using hNone⟩

/-- A text with the character after its start is parted at the last one. -/
theorem partLast?_append {c : Char} {before after : List Char} (hAfter : c ∉ after)
    (hSome : before ≠ []) : partLast? c (before ++ c :: after) = some (before, after) := by
  have hOthers : ∀ d ∈ after.reverse, (decide (d ≠ c)) = true := by
    intro d hMem
    refine decide_eq_true ?_
    rintro rfl
    exact hAfter (List.mem_reverse.mp hMem)
  have hLast : ((before ++ c :: after).reverse.takeWhile (· ≠ c)).reverse = after := by
    rw [List.reverse_append, List.reverse_cons, List.append_assoc,
      List.takeWhile_append_of_pos hOthers]
    simp
  have hFront : (before ++ c :: after).take ((before ++ c :: after).length - after.length) =
      before ++ [c] := by
    have hWhole : before ++ c :: after = (before ++ [c]) ++ after := by simp
    rw [hWhole, List.length_append, Nat.add_sub_cancel, List.take_left']
    rfl
  unfold partLast?
  dsimp only
  rw [hLast, hFront, List.dropLast_concat, if_neg hSome]

/-- A text that is not parted has the character at its start or nowhere. -/
theorem not_mem_tail_of_partLast? {c : Char} {s : List Char} (h : partLast? c s = none) :
    c ∉ s.tail := by
  obtain ⟨front, rest, rfl, hRest, hHead, hParts⟩ := exists_partLast?_eq c s
  rw [hParts] at h
  split_ifs at h with hNone
  cases front with
  | nil => exact fun hMem => hRest (List.mem_of_mem_tail hMem)
  | cons d front =>
      obtain rfl : front = [] := hNone
      exact hRest

end Text

namespace Path

variable {p name : String} {piece : Piece} {front : List Piece}

theorem not_mem_of_mem_splitOn {c : Char} {s : List Char} (h : piece ∈ s.splitOn c) :
    c ∉ piece := by
  induction s generalizing piece with
  | nil =>
      obtain rfl : piece = [] := by simpa using h
      exact List.not_mem_nil
  | cons d s ih =>
      rw [List.splitOn_cons_eq_if_modifyHead] at h
      split_ifs at h with hSame
      · rcases List.mem_cons.mp h with rfl | hRest
        · exact List.not_mem_nil
        · exact ih hRest
      · cases hPieces : s.splitOn c with
        | nil => exact absurd hPieces (List.splitOn_ne_nil c s)
        | cons first rest =>
            rw [hPieces] at h ih
            rcases List.mem_cons.mp h with rfl | hRest
            · have hFirst := ih List.mem_cons_self
              have hOther : c ≠ d := by
                rintro rfl
                simp at hSame
              simp [hOther, hFirst]
            · exact ih (List.mem_cons_of_mem first hRest)

theorem slash_not_mem_of_mem_pieces (h : piece ∈ pieces p) : '/' ∉ piece :=
  not_mem_of_mem_splitOn h

/-- A piece is a name to a path exactly if it is one to a file tree. -/
theorem isName_iff : isName piece = true ↔ FileTree.IsName (String.ofList piece) := by
  have hText (s : List Char) : String.ofList piece = String.ofList s ↔ piece = s :=
    String.ofList_inj
  have hEmpty : String.ofList piece = "" ↔ piece = [] := hText []
  have hDot : String.ofList piece = "." ↔ piece = ['.'] := hText ['.']
  have hUp : String.ofList piece = ".." ↔ piece = ['.', '.'] := hText ['.', '.']
  simp [isName, isIdle, FileTree.IsName, hEmpty, hDot, hUp]

/-- Nothing is dropped from pieces that end in a name. -/
theorem trimIdle_concat (h : isName piece = true) : trimIdle (front ++ [piece]) = front ++ [piece] := by
  have hBusy : isIdle piece = false := by
    rw [isName, Bool.and_eq_true] at h
    simpa using h.1
  cases front with
  | nil => rfl
  | cons first rest => simp [trimIdle, hBusy]

/-- Where the last piece is a name, the stem of the path is that of the name. -/
theorem stem?_of_pieces (hPieces : pieces p = front ++ [piece]) (h : isName piece = true) :
    stem? p = some (String.ofList (nameStem piece)) := by
  simp [stem?, splitName, hPieces, trimIdle_concat h, h]

theorem mem_of_mem_nameStem {c : Char} (h : c ∈ nameStem piece) : c ∈ piece := by
  unfold nameStem splitDot at h
  cases hParts : Text.partLast? '.' piece with
  | none => simpa [hParts] using h
  | some parts =>
      obtain ⟨before, after⟩ := parts
      rw [(Text.of_partLast? hParts).1]
      exact List.mem_append_left _ (by simpa [hParts] using h)

/-- Only the last part of this ending is an extension. -/
theorem nameStem_append (front : Piece) :
    nameStem (front ++ ".segments.json".toList) = front ++ ".segments".toList := by
  have hEnding : front ++ ".segments.json".toList =
      (front ++ ".segments".toList) ++ '.' :: "json".toList := by simp
  have hSome : front ++ ".segments".toList ≠ [] := by simp
  rw [nameStem, splitDot, hEnding, Text.partLast?_append (by decide) hSome]
  rfl

/-- No name is its own stem with this ending, since its stem would be longer. -/
theorem nameStem_append_ne (piece : Piece) :
    nameStem piece ++ ".segments.json".toList ≠ piece := by
  intro hSame
  have hLonger := nameStem_append (nameStem piece)
  rw [hSame] at hLonger
  have hLength := congrArg List.length hLonger
  simp at hLength

/-- Names that are joined to a directory are pieces after those of the directory, in
place of the empty one after a slash at its end. -/
theorem exists_front_join (directory : String) :
    ∃ front, (front = pieces directory ∨ pieces directory = front ++ [[]]) ∧
      ∀ name, '/' ∉ name.toList → pieces (join directory name) = front ++ [name.toList] := by
  have hName {name : String} (h : '/' ∉ name.toList) :
      name.toList.splitOn '/' = [name.toList] :=
    List.splitOn_eq_singleton h
  by_cases hEmpty : directory.isEmpty
  · refine ⟨[], Or.inr ?_, fun name h => ?_⟩
    · rw [String.isEmpty_iff.mp hEmpty]
      rfl
    · rw [join, if_pos hEmpty]
      exact hName h
  · by_cases hSlash : directory.toList.getLast? = some '/'
    · obtain ⟨front, hFront⟩ := List.getLast?_eq_some_iff.mp hSlash
      refine ⟨front.splitOn '/', Or.inr ?_, fun name h => ?_⟩
      · simp [pieces, hFront, List.splitOn_append_cons_self]
      · rw [join, if_neg hEmpty, if_pos hSlash]
        simp [pieces, hFront, List.splitOn_append_cons_self, hName h]
    · refine ⟨pieces directory, Or.inl rfl, fun name h => ?_⟩
      have hParts : (directory ++ "/" ++ name).toList =
          directory.toList ++ '/' :: name.toList := by
        simp
      rw [join, if_neg hEmpty, if_neg hSlash]
      simp [pieces, hParts, List.splitOn_append_cons_self, hName h]

/-- Names that are joined to a directory end the path. -/
theorem exists_pathNames_join (directory : String) :
    ∃ front : List Piece, front <+: pieces directory ∧ ∀ name, '/' ∉ name.toList →
      FileTree.pathNames (join directory name) = front.map String.ofList ++ [name] := by
  obtain ⟨front, hFront, hPieces⟩ := exists_front_join directory
  refine ⟨front, ?_, fun name h => by simp [FileTree.pathNames, hPieces name h]⟩
  rcases hFront with rfl | hMore
  · exact List.prefix_rfl
  · exact ⟨[[]], hMore.symm⟩

end Path

namespace FileTree

variable {t : FileTree} {path : String} {start place : Place} {names : List String}

/-- A place is a directory, and so is all around it. -/
def Stands (t : FileTree) (place : Place) : Prop :=
  ∀ around, around <+: place → t.at? around = some .directory

theorem Stands.dropLast (h : t.Stands place) : t.Stands place.dropLast :=
  fun _ hAround => h _ (hAround.trans (List.dropLast_prefix place))

theorem Stands.concat {name : String} (h : t.Stands place)
    (hName : t.at? (place ++ [name]) = some .directory) : t.Stands (place ++ [name]) := by
  intro around hAround
  rcases List.prefix_concat_iff.mp hAround with rfl | hAround
  · exact hName
  · exact h around hAround

/-- A path starts from the root or from the working directory, so where this stands it
starts from what stands. -/
theorem stands_origin (h : t.Stands t.working) (path : String) : t.Stands (t.origin path) := by
  unfold origin
  split_ifs
  · intro around hAround
    rw [List.prefix_nil.mp hAround]
    rfl
  · exact h

/-- Only a walk that ends in a name ends at a file. -/
theorem stands_of_walk (hStart : t.Stands start) (h : t.walk start names = .ok place)
    (hLast : ∀ name ∈ names.getLast?, ¬ IsName name) : t.Stands place := by
  induction names generalizing start with
  | nil =>
      cases h
      exact hStart
  | cons name names ih =>
      have hRest : ∀ last ∈ names.getLast?, ¬ IsName last := by
        intro last hMem
        exact hLast last (List.mem_getLast?_cons hMem)
      rcases name_cases name with hIdle | rfl | hName
      · rw [walk_idle hIdle] at h
        exact ih hStart h hRest
      · rw [walk_up] at h
        exact ih hStart.dropLast h hRest
      · obtain ⟨_, ⟨hThere, hWalk⟩ | ⟨_, rfl, _⟩⟩ := (walk_name_iff hName).mp h
        · exact ih (hStart.concat hThere) hWalk hRest
        · exact absurd hName (hLast name rfl)

/-- A path to a file ends in its name. -/
theorem exists_pathNames_eq (hWorking : t.Stands t.working)
    (hWalk : t.walk (t.origin path) (pathNames path) = .ok place) {content : List UInt8}
    (hFile : t.at? place = some (.file content)) :
    ∃ front name, pathNames path = front ++ [name] ∧ IsName name := by
  by_contra hNone
  have hLast : ∀ name ∈ (pathNames path).getLast?, ¬ IsName name := by
    intro name hMem hName
    obtain ⟨front, hFront⟩ := List.getLast?_eq_some_iff.mp hMem
    exact hNone ⟨front, name, hFront, hName⟩
  have hThere := stands_of_walk (stands_origin hWorking path) hWalk hLast place List.prefix_rfl
  rw [hFile] at hThere
  cases hThere

/-- The last name of a path is the last of its pieces. -/
theorem exists_pieces_of_name {front : List String} {name : String} (h : IsName name)
    (hNames : pathNames path = front ++ [name]) :
    ∃ before piece, Path.pieces path = before ++ [piece] ∧ Path.isName piece = true ∧
      front = before.map String.ofList ∧ name = String.ofList piece := by
  obtain ⟨before, last, hPieces, hFront, hLast⟩ := List.map_eq_append_iff.mp hNames
  obtain ⟨piece, rfl, rfl⟩ : ∃ piece, last = [piece] ∧ String.ofList piece = name := by
    simpa [List.map_eq_singleton_iff] using hLast
  exact ⟨before, piece, hPieces, Path.isName_iff.mpr h, hFront.symm, rfl⟩

/-- A path that ends in a name leads to that name in the place where the rest of it
leads. -/
theorem placeOf_of_name {front : List String} {name : String} (h : IsName name)
    (hNames : pathNames path = front ++ [name]) :
    t.placeOf path = advance (t.origin path) front ++ [name] := by
  rw [placeOf, hNames, advance_append, advance_name h]
  rfl

end FileTree

namespace Storage

/-- The name of a sidecar is always joined to some directory, be it the given one or the
one of the transcript. -/
theorem exists_sidecarPath_eq (transcript : String) (directory : Option String) :
    ∃ d, sidecarPath transcript directory =
      Path.join d ((Path.stem? transcript).getD "transcript" ++ ".segments.json") := by
  unfold sidecarPath
  cases directory with
  | some directory => exact ⟨directory, rfl⟩
  | none =>
      simp only [Path.withName]
      split
      · exact ⟨_, rfl⟩
      · exact ⟨_, rfl⟩

/-- The name of a sidecar is never a dot or two, whatever the stem is. -/
theorem isName_sidecar (stem : String) : FileTree.IsName (stem ++ ".segments.json") := by
  have hLong (s : String) (hs : s.length < 14) : stem ++ ".segments.json" ≠ s := by
    rintro rfl
    rw [String.length_append] at hs
    exact absurd hs (Nat.not_lt.mpr (Nat.le_add_left 14 _))
  exact ⟨not_or.mpr ⟨hLong "" (by decide), hLong "." (by decide)⟩, hLong ".." (by decide)⟩

/-- The sidecar of a file has another place than the file. -/
theorem placeOf_sidecarPath_ne {t : FileTree} {transcript : String} (hWorking : t.Stands t.working)
    (hWalk : t.walk (t.origin transcript) (FileTree.pathNames transcript) =
      .ok (t.placeOf transcript)) {content : List UInt8}
    (hFile : t.at? (t.placeOf transcript) = some (.file content)) (directory : Option String) :
    t.placeOf (sidecarPath transcript directory) ≠ t.placeOf transcript := by
  obtain ⟨front, name, hNames, hName⟩ := FileTree.exists_pathNames_eq hWorking hWalk hFile
  obtain ⟨ps, piece, hPieces, hPiece, -, rfl⟩ := FileTree.exists_pieces_of_name hName hNames
  have hSlash : '/' ∉ piece := Path.slash_not_mem_of_mem_pieces (p := transcript) (by simp [hPieces])
  obtain ⟨d, hSidecar⟩ := exists_sidecarPath_eq transcript directory
  rw [Path.stem?_of_pieces hPieces hPiece, Option.getD_some] at hSidecar
  have hStem : '/' ∉ (String.ofList (Path.nameStem piece) ++ ".segments.json").toList := by
    simp only [String.toList_append, String.toList_ofList, List.mem_append, not_or]
    exact ⟨fun hMem => hSlash (Path.mem_of_mem_nameStem hMem), by decide⟩
  obtain ⟨front', -, hJoined⟩ := Path.exists_pathNames_join d
  rw [hSidecar, FileTree.placeOf_of_name (isName_sidecar _) (hJoined _ hStem),
    FileTree.placeOf_of_name hName hNames]
  intro hSame
  have hNameSame := (List.append_inj' hSame rfl).2
  have hChars := congrArg String.toList (List.singleton_inj.mp hNameSame)
  exact Path.nameStem_append_ne piece (by simpa using hChars)

end Storage

end RoughCut
