import RoughCut.Proofs.PathComponents

/-!
Paths in another spelling. Each character may be spelled with several, so long as slashes
and dots spell themselves and stand in the spelling of nothing else. A path is then parted
at the same places, so its last name, its stem and its parent are what they were, spelled.
-/

namespace RoughCut

namespace Path

/-- Characters spelled with characters, so that slashes and dots spell themselves and
nothing else has them. -/
structure Spelling (g : Char → List Char) : Prop where
  nonempty : ∀ c, g c ≠ []
  slash : ∀ c, '/' ∈ g c ↔ c = '/'
  slash_alone : g '/' = ['/']
  dot : ∀ c, '.' ∈ g c ↔ c = '.'
  dot_alone : g '.' = ['.']

/-- The text with each character spelled. -/
def spelled (g : Char → List Char) (p : String) : String :=
  String.ofList (p.toList.flatMap g)

/-- Pieces that are joined and then spelled are spelled and then joined, with the
spelling of what stands between them. -/
theorem flatMap_intercalate {g : Char → List Char} (sep : List Char) (ps : List Piece) :
    (sep.intercalate ps).flatMap g = (sep.flatMap g).intercalate (ps.map (List.flatMap g)) := by
  induction ps with
  | nil => rfl
  | cons first rest ih =>
      cases rest with
      | nil => simp
      | cons next rest =>
          rw [List.intercalate_cons_cons, List.flatMap_append, List.flatMap_append, ih]
          simp only [List.map_cons, List.intercalate_cons_cons]

namespace Spelling

variable {g : Char → List Char} {p name : String} {piece : Piece} {ps front : List Piece}

/-- A piece has a slash in its spelling only if it has one itself. -/
theorem mem_slash (h : Spelling g) : '/' ∈ piece.flatMap g ↔ '/' ∈ piece := by
  simp [h.slash]

/-- A piece has a dot in its spelling only if it has one itself. -/
theorem mem_dot (h : Spelling g) : '.' ∈ piece.flatMap g ↔ '.' ∈ piece := by
  simp [h.dot]

/-- Spelled pieces are joined to the spelling of the joined pieces, for a slash spells
itself. -/
theorem ofPieces_map (h : Spelling g) (ps : List Piece) :
    ofPieces (ps.map (List.flatMap g)) = spelled g (ofPieces ps) := by
  rw [ofPieces, spelled, ofPieces, String.toList_ofList, flatMap_intercalate]
  simp [h.slash_alone]

/-- A spelled path is parted into the spelled pieces of the path. No slash is lost or
comes up between them. -/
theorem pieces_spelled (h : Spelling g) (p : String) :
    pieces (spelled g p) = (pieces p).map (List.flatMap g) := by
  have hWhole : p = ofPieces (pieces p) := by
    rw [ofPieces, pieces, List.intercalate_splitOn, String.ofList_toList]
  conv_lhs => rw [hWhole, ← h.ofPieces_map]
  refine pieces_ofPieces (by simp [pieces_ne_nil]) fun piece hPiece => ?_
  obtain ⟨own, hOwn, rfl⟩ := List.mem_map.mp hPiece
  rw [h.mem_slash]
  exact slash_not_mem_of_mem_pieces hOwn

theorem flatMap_eq_nil (h : Spelling g) : piece.flatMap g = [] ↔ piece = [] := by
  rw [List.flatMap_eq_nil_iff, List.eq_nil_iff_forall_not_mem]
  exact forall_congr' fun c => forall_congr' fun _ => iff_false_intro (h.nonempty c)

/-- Nothing but dots is spelled with dots alone. -/
theorem flatMap_eq_dots (h : Spelling g) {dots : Piece} (hDots : ∀ c ∈ dots, c = '.') :
    piece.flatMap g = dots ↔ piece = dots := by
  have hAlone (s : Piece) (hs : ∀ c ∈ s, c = '.') : s.flatMap g = s := by
    induction s with
    | nil => rfl
    | cons c s ih =>
        rw [List.flatMap_cons, hs c List.mem_cons_self, h.dot_alone,
          ih fun d hd => hs d (List.mem_cons_of_mem c hd)]
        rfl
  constructor
  · intro hSame
    have hPiece : ∀ c ∈ piece, c = '.' := by
      intro c hc
      obtain ⟨d, hd⟩ := List.exists_mem_of_ne_nil _ (h.nonempty c)
      have hDot := hDots d (hSame ▸ List.mem_flatMap.mpr ⟨c, hc, hd⟩)
      exact (h.dot c).mp (hDot ▸ hd)
    rw [← hSame, hAlone piece hPiece]
  · rintro rfl
    exact hAlone piece hDots

/-- A piece that leads nowhere, being empty or a single dot, does so in every spelling,
and no other piece comes to. -/
theorem isIdle_flatMap (h : Spelling g) (piece : Piece) : isIdle (piece.flatMap g) = isIdle piece := by
  have hDot : piece.flatMap g = ['.'] ↔ piece = ['.'] := h.flatMap_eq_dots (by simp)
  rw [Bool.eq_iff_iff]
  simp only [isIdle, Bool.or_eq_true, beq_iff_eq, hDot, h.flatMap_eq_nil]

theorem isName_flatMap (h : Spelling g) (piece : Piece) : isName (piece.flatMap g) = isName piece := by
  have hDots : piece.flatMap g = ['.', '.'] ↔ piece = ['.', '.'] := h.flatMap_eq_dots (by simp)
  rw [isName, isName, h.isIdle_flatMap, Bool.eq_iff_iff]
  simp only [Bool.and_eq_true, bne_iff_ne, ne_eq, hDots]

/-- Trimming at the end leaves the same pieces in every spelling. -/
theorem trimIdle_map (h : Spelling g) (ps : List Piece) :
    trimIdle (ps.map (List.flatMap g)) = (trimIdle ps).map (List.flatMap g) := by
  have hSame : isIdle ∘ List.flatMap g = isIdle := funext h.isIdle_flatMap
  cases ps with
  | nil => rfl
  | cons first rest =>
      simp only [List.map_cons, trimIdle, ← List.map_reverse, List.dropWhile_map, hSame]

/-- A path in another spelling is split before its last name into what it is split into
otherwise, spelled. -/
theorem splitName_spelled (h : Spelling g) (p : String) :
    splitName (spelled g p) =
      (splitName p).map fun (front, name) => (front.map (List.flatMap g), name.flatMap g) := by
  cases hSplit : splitName p with
  | some parts =>
      obtain ⟨hTrimmed, hName⟩ := splitName_eq_some_iff.mp hSplit
      rw [Option.map_some, splitName_eq_some_iff, h.pieces_spelled, h.trimIdle_map, hTrimmed,
        h.isName_flatMap]
      exact ⟨by simp, hName⟩
  | none =>
      rw [Option.map_none, Option.eq_none_iff_forall_ne_some]
      rintro ⟨front, piece⟩ hSpelled
      obtain ⟨hTrimmed, hName⟩ := splitName_eq_some_iff.mp hSpelled
      rw [h.pieces_spelled, h.trimIdle_map] at hTrimmed
      obtain ⟨front, last, hParts, rfl, hLast⟩ := List.map_eq_append_iff.mp hTrimmed
      obtain ⟨piece, rfl, rfl⟩ := List.map_eq_singleton_iff.mp hLast
      rw [h.isName_flatMap] at hName
      rw [splitName_eq_some_iff.mpr ⟨hParts, hName⟩] at hSplit
      cases hSplit

/-- The last name of a spelled path is the last name of the path, spelled. -/
theorem name?_spelled (h : Spelling g) (p : String) :
    name? (spelled g p) = (name? p).map (spelled g) := by
  rw [name?, name?, h.splitName_spelled, Option.map_map, Option.map_map]
  refine congrArg (Option.map · (splitName p)) (funext fun parts => ?_)
  simp [spelled]

/-- A name in another spelling loses the same extension. Its last dot is where it was,
and a dot in front is still in front. -/
theorem nameStem_flatMap (h : Spelling g) (name : Piece) :
    nameStem (name.flatMap g) = (nameStem name).flatMap g := by
  unfold nameStem splitDot
  cases hParts : Text.partLast? '.' name with
  | some parts =>
      obtain ⟨before, after⟩ := parts
      obtain ⟨rfl, hDots, hSome⟩ := Text.of_partLast? hParts
      have hSpelled : (before ++ '.' :: after).flatMap g =
          before.flatMap g ++ '.' :: after.flatMap g := by
        simp [h.dot_alone]
      rw [hSpelled, Text.partLast?_append (mt h.mem_dot.mp hDots) (mt h.flatMap_eq_nil.mp hSome)]
      rfl
  | none =>
      have hTail := Text.not_mem_tail_of_partLast? hParts
      cases hSpelled : Text.partLast? '.' (name.flatMap g) with
      | none => rfl
      | some parts =>
          exfalso
          obtain ⟨before, after⟩ := parts
          obtain ⟨hWhole, -, hSome⟩ := Text.of_partLast? hSpelled
          obtain ⟨first, before, rfl⟩ := List.exists_cons_of_ne_nil hSome
          cases name with
          | nil => cases hWhole
          | cons c rest =>
              by_cases hDot : c = '.'
              · -- a dot at the start of a name parts nothing
                subst hDot
                rw [List.flatMap_cons, h.dot_alone] at hWhole
                have hRest : rest.flatMap g = before ++ '.' :: after := congrArg List.tail hWhole
                exact hTail (h.mem_dot.mp (by simp [hRest]))
              · have hMem : '.' ∈ (c :: rest).flatMap g := by simp [hWhole]
                rcases List.mem_cons.mp (h.mem_dot.mp hMem) with hSame | hRest
                · exact hDot hSame.symm
                · exact hTail hRest

/-- Texts one behind the other are spelled one behind the other. -/
theorem spelled_append (p q : String) : spelled g (p ++ q) = spelled g p ++ spelled g q := by
  rw [← String.toList_inj]
  simp [spelled]

theorem spelled_slash (h : Spelling g) : spelled g "/" = "/" := by
  simp [spelled, h.slash_alone]

/-- The stem of a spelled path is the stem of the path, spelled. -/
theorem stem?_spelled (h : Spelling g) (p : String) :
    stem? (spelled g p) = (stem? p).map (spelled g) := by
  rw [stem?, stem?, h.splitName_spelled, Option.map_map, Option.map_map]
  refine congrArg (Option.map · (splitName p)) (funext fun parts => ?_)
  simp [spelled, h.nameStem_flatMap]

/-- The parent of a spelled path is the parent of the path, spelled. -/
theorem parent?_spelled (h : Spelling g) (p : String) :
    parent? (spelled g p) = (parent? p).map (spelled g) := by
  have hTrimmed : trimIdle (pieces (spelled g p)) =
      (trimIdle (pieces p)).map (List.flatMap g) := by
    rw [h.pieces_spelled, h.trimIdle_map]
  rcases List.eq_nil_or_concat' (trimIdle (pieces p)) with hNone | ⟨front, piece, hParts⟩
  · exact absurd (trimIdle_eq_nil_iff.mp hNone) (pieces_ne_nil p)
  rw [hParts] at hTrimmed
  by_cases hSome : front = []
  · subst hSome
    by_cases hPiece : piece = []
    · subst hPiece
      rw [parent?, parent?, hTrimmed, hParts]
      rfl
    · rw [parent?_of_one hTrimmed (mt h.flatMap_eq_nil.mp hPiece), parent?_of_one hParts hPiece]
      rfl
  · rw [List.map_append, List.map_singleton] at hTrimmed
    rw [parent?_of_more hTrimmed (by simpa using hSome), parent?_of_more hParts hSome,
      Option.map_some, h.trimIdle_map]
    have hRoot : (trimIdle front).map (List.flatMap g) = [[]] ↔ trimIdle front = [[]] := by
      constructor
      · intro hMap
        obtain ⟨piece, hFront, hPiece⟩ := List.map_eq_singleton_iff.mp hMap
        rw [hFront, h.flatMap_eq_nil.mp hPiece]
      · intro hFront
        rw [hFront]
        rfl
    by_cases hFront : trimIdle front = [[]]
    · rw [if_pos (hRoot.mpr hFront), if_pos hFront, h.spelled_slash]
    · rw [if_neg (mt hRoot.mp hFront), if_neg hFront, h.ofPieces_map]

/-- A spelled name is joined to a spelled directory as the name to the directory.
Whether a slash has to come between them is the same in every spelling. -/
theorem join_spelled (h : Spelling g) (directory name : String) :
    join (spelled g directory) (spelled g name) = spelled g (join directory name) := by
  have hEmpty : (spelled g directory).isEmpty = directory.isEmpty := by
    rw [Bool.eq_iff_iff, String.isEmpty_iff, String.isEmpty_iff, ← String.toList_inj,
      ← String.toList_inj, spelled, String.toList_ofList]
    exact h.flatMap_eq_nil
  have hLast : (spelled g directory).toList.getLast? = some '/' ↔
      directory.toList.getLast? = some '/' := by
    rw [spelled, String.toList_ofList]
    rcases List.eq_nil_or_concat' directory.toList with hNone | ⟨front, c, hParts⟩
    · rw [hNone]
      rfl
    · rw [hParts, List.getLast?_concat, List.flatMap_append, List.flatMap_singleton,
        List.getLast?_append_of_ne_nil _ (h.nonempty c), Option.some_inj]
      by_cases hSlash : c = '/'
      · subst hSlash
        rw [h.slash_alone]
        exact iff_of_true rfl rfl
      · refine iff_of_false (fun hLast => hSlash ?_) hSlash
        exact (h.slash c).mp (List.mem_of_getLast? hLast)
  unfold join
  rw [hEmpty]
  split_ifs with hNone hOwn hOther hOther
  · rfl
  · rw [spelled_append]
  · exact absurd (hLast.mp hOwn) hOther
  · exact absurd (hLast.mpr hOther) hOwn
  · rw [spelled_append, spelled_append, h.spelled_slash]

/-- To replace the last name of a spelled path by a spelled name is to spell the path
with its last name replaced. -/
theorem withName_spelled (h : Spelling g) (p name : String) :
    withName (spelled g p) (spelled g name) = spelled g (withName p name) := by
  unfold withName
  rw [h.name?_spelled, h.parent?_spelled]
  cases name? p with
  | none => exact h.join_spelled p name
  | some last =>
      cases parent? p with
      | none => exact h.join_spelled p name
      | some parent => exact h.join_spelled parent name

end Spelling

end Path

end RoughCut
