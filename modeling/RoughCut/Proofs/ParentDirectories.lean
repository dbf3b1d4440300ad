import RoughCut.Proofs.PathComponents

/-!
The directories around a path. They are where the names of the path lead before the
last of them. Where no file is in the way they can all be made, and then the path leads
through them.
-/

namespace RoughCut

namespace Path

variable {p q path : String} {piece : Piece} {front ps : List Piece}

/-- Nothing idle is left at the end of pieces that were trimmed. -/
theorem trimIdle_trimIdle (ps : List Piece) : trimIdle (trimIdle ps) = trimIdle ps := by
  cases ps with
  | nil => rfl
  | cons first rest => simp only [trimIdle, List.reverse_reverse, List.dropWhile_idempotent _ _]

/-- What stays at the end leads somewhere, unless it is all that stays. -/
theorem isIdle_last_of_trimIdle (h : trimIdle ps = front ++ [piece]) (hSome : front ≠ []) :
    isIdle piece = false := by
  cases ps with
  | nil => simp [trimIdle] at h
  | cons first rest =>
      cases front with
      | nil => exact absurd rfl hSome
      | cons other front =>
          rw [trimIdle, List.cons_append, List.cons.injEq, List.reverse_eq_iff,
            List.reverse_append] at h
          have hHead := List.head?_dropWhile_not isIdle rest.reverse
          rw [h.2] at hHead
          simpa using hHead

/-- Above the parent of a path is nothing, or the parent is made of the pieces before
the last of the path. -/
theorem parent_cases (h : trimIdle (pieces p) = front ++ [piece]) (hParent : parent? p = some q) :
    parent? q = none ∧ (∀ piece ∈ front, isIdle piece = true) ∨
      ∃ before last above, pieces q = before ++ [last] ∧ last ≠ [] ∧ pieces q = trimIdle front ∧
        isAbsolute q = isAbsolute p ∧ parent? q = some above := by
  by_cases hSome : front = []
  · subst hSome
    have hPiece : piece ≠ [] := by
      rintro rfl
      rw [parent?, h] at hParent
      cases hParent
    rw [parent?_of_one h hPiece] at hParent
    obtain rfl := Option.some.inj hParent
    exact Or.inl ⟨by decide, by simp⟩
  · rw [parent?_of_more h hSome] at hParent
    split_ifs at hParent with hRoot
    · obtain rfl := Option.some.inj hParent
      refine Or.inl ⟨by decide, fun piece hPiece => ?_⟩
      obtain ⟨idle, hParts, hIdle⟩ := exists_trimIdle_append front
      rw [hParts, hRoot, List.mem_append, List.mem_singleton] at hPiece
      rcases hPiece with rfl | hPiece
      · rfl
      · exact hIdle piece hPiece
    · obtain rfl := Option.some.inj hParent
      have hKept : trimIdle front <+: pieces p :=
        (trimIdle_initial front).trans <|
          (List.prefix_append front [piece]).trans (h ▸ trimIdle_initial (pieces p))
      have hKeptSome : trimIdle front ≠ [] := fun hNone => hSome (trimIdle_eq_nil_iff.mp hNone)
      have hPieces := pieces_ofPieces hKeptSome (slash_not_mem_of_initial hKept)
      rcases List.eq_nil_or_concat' (trimIdle front) with hNone | ⟨before, last, hParts⟩
      · exact absurd hNone hKeptSome
      have hTrimmed : trimIdle (pieces (ofPieces (trimIdle front))) = before ++ [last] := by
        rw [hPieces, trimIdle_trimIdle, hParts]
      have hLast : last ≠ [] := by
        rintro rfl
        by_cases hBefore : before = []
        · exact hRoot (by rw [hParts, hBefore]; rfl)
        · exact absurd (isIdle_last_of_trimIdle hParts hBefore) (by decide)
      refine Or.inr ⟨before, last, ?_⟩
      by_cases hBefore : before = []
      · subst hBefore
        exact ⟨_, hPieces.trans hParts, hLast, hPieces, isAbsolute_ofPieces hKept hKeptSome hRoot,
          parent?_of_one hTrimmed hLast⟩
      · exact ⟨_, hPieces.trans hParts, hLast, hPieces, isAbsolute_ofPieces hKept hKeptSome hRoot,
          parent?_of_more hTrimmed hBefore⟩

/-- A path has more pieces than its parent, unless nothing is above that. So going up
from parent to parent comes to an end. -/
theorem length_parent (hParent : parent? p = some q) :
    parent? q = none ∨ (pieces q).length < (pieces p).length := by
  rcases List.eq_nil_or_concat' (trimIdle (pieces p)) with hNone | ⟨front, piece, hTrimmed⟩
  · exact absurd (trimIdle_eq_nil_iff.mp hNone) (pieces_ne_nil p)
  · rcases parent_cases hTrimmed hParent with ⟨hTop, -⟩ | ⟨_, _, _, -, -, hFront, -⟩
    · exact Or.inl hTop
    · refine Or.inr ?_
      have hWhole := (trimIdle_initial (pieces p)).length_le
      have hKept := (trimIdle_initial front).length_le
      rw [hTrimmed, List.length_append, List.length_singleton] at hWhole
      rw [hFront]
      omega

/-- Above the root or the empty path there is no directory to be made. -/
theorem ancestorsWithin_of_top (h : parent? path = none) (n : Nat) :
    ancestorsWithin n path = [] := by
  cases n with
  | zero => rfl
  | succ n => rw [ancestorsWithin, h]

/-- Every path above another is made of its first pieces. -/
theorem initial_of_mem_ancestorsWithin {n : Nat} (h : trimIdle (pieces p) = front ++ [piece])
    (hParent : parent? p = some q) (hMem : path ∈ ancestorsWithin n q) :
    pieces path <+: front ∧ isAbsolute path = isAbsolute p := by
  induction n generalizing p q front piece with
  | zero => cases hMem
  | succ n ih =>
      rw [ancestorsWithin] at hMem
      rcases parent_cases h hParent with
        ⟨hTop, -⟩ | ⟨before, last, above, hPieces, -, hFront, hRoot, hAbove⟩
      · rw [hTop] at hMem
        cases hMem
      · rw [hAbove] at hMem
        have hKept : pieces q <+: front := hFront ▸ trimIdle_initial front
        rcases List.mem_cons.mp hMem with rfl | hMem
        · exact ⟨hKept, hRoot⟩
        · have hTrimmed : trimIdle (pieces q) = before ++ [last] := by
            rw [hFront, trimIdle_trimIdle, ← hFront, hPieces]
          obtain ⟨hInitial, hSame⟩ := ih hTrimmed hAbove hMem
          refine ⟨hInitial.trans ((List.prefix_append before [last]).trans ?_), hSame.trans hRoot⟩
          rwa [← hPieces]

theorem intercalate_initial {ps qs : List Piece} (h : qs <+: ps) :
    ['/'].intercalate qs <+: ['/'].intercalate ps := by
  obtain ⟨rest, rfl⟩ := h
  induction qs with
  | nil => exact List.nil_prefix
  | cons first qs ih =>
      by_cases hQs : qs = []
      · subst hQs
        cases rest with
        | nil => exact List.prefix_rfl
        | cons next rest =>
            rw [List.singleton_append, List.intercalate_singleton,
              List.intercalate_cons_of_ne_nil (List.cons_ne_nil next rest), List.append_assoc]
            exact List.prefix_append first _
      · rw [List.cons_append, List.intercalate_cons_of_ne_nil hQs,
          List.intercalate_cons_of_ne_nil (List.append_ne_nil_of_left_ne_nil hQs rest)]
        exact (List.prefix_append_right_inj _).mpr ih

/-- A path of the first pieces of another is the beginning of its text. -/
theorem toList_initial (h : pieces q <+: pieces p) : q.toList <+: p.toList := by
  have hText (s : String) : s.toList = ['/'].intercalate (pieces s) := by
    rw [pieces, List.intercalate_splitOn]
  rw [hText q, hText p]
  exact intercalate_initial h

end Path

namespace FileTree

open RoughCut.Path Json

variable {t t' : FileTree} {path name : String} {start directory place : Place}
  {names front : List String}

/-- A place to which the names of a path lead before the last of them. -/
def OnWay (t : FileTree) (path : String) (place : Place) : Prop :=
  ∃ front rest, pathNames path = front ++ rest ∧ rest ≠ [] ∧
    place = advance (t.origin path) front

/-- The places on the way of a path are those to which its names lead before the last
one. -/
theorem onWay_iff_of_names (hNames : pathNames path = front ++ [name]) :
    t.OnWay path place ↔ ∃ before, before <+: front ∧ place = advance (t.origin path) before := by
  constructor
  · rintro ⟨before, rest, hParts, hRest, rfl⟩
    obtain ⟨others, last, rfl⟩ := (List.eq_nil_or_concat' rest).resolve_left hRest
    rw [hNames, ← List.append_assoc] at hParts
    exact ⟨before, ⟨others, (List.append_inj' hParts rfl).1.symm⟩, rfl⟩
  · rintro ⟨before, ⟨others, rfl⟩, rfl⟩
    exact ⟨before, others ++ [name], by simp [hNames], by simp, rfl⟩

/-- From where a path starts is told by whether it is absolute. -/
theorem origin_congr {other : String} (h : isAbsolute path = isAbsolute other) (t : FileTree) :
    t.origin path = t.origin other := by
  rw [origin, origin, h]

/-- What is above the parent of a path is on the way along the path. -/
theorem onWay_of_mem_ancestors {parent other : String} {n : Nat}
    (hParent : parent? path = some parent) (hMem : other ∈ ancestorsWithin n parent) :
    t.OnWay path (t.placeOf other) := by
  rcases List.eq_nil_or_concat' (trimIdle (pieces path)) with
    hNone | ⟨before, last, hTrimmed⟩
  · exact absurd (trimIdle_eq_nil_iff.mp hNone) (pieces_ne_nil path)
  · obtain ⟨⟨others, hOthers⟩, hRoot⟩ := initial_of_mem_ancestorsWithin hTrimmed hParent hMem
    obtain ⟨idle, hParts, -⟩ := exists_trimIdle_append (pieces path)
    refine ⟨pathNames other, (others ++ [last] ++ idle).map String.ofList, ?_, by simp, ?_⟩
    · rw [pathNames, pathNames, hParts, hTrimmed, ← hOthers]
      simp
    · rw [placeOf, origin_congr hRoot]

/-! Walks that nothing stops but what is missing. -/

/-- No name is too long and no file is on the way. -/
structure Clear (t : FileTree) (start : Place) (names : List String) : Prop where
  short : ∀ name ∈ names, name.utf8ByteSize ≤ maxNameBytes
  noFile : ∀ front, front <+: names → ∀ content, t.at? (advance start front) ≠ some (.file content)

/-- Where the way along all names is clear, so is the way along the first few. -/
theorem Clear.of_initial (h : t.Clear start names) (hFront : front <+: names) :
    t.Clear start front where
  short name hName := h.short name (hFront.subset hName)
  noFile other hOther := h.noFile other (hOther.trans hFront)

/-- A way stays clear where directories are made, for no file comes up on it. -/
theorem Clear.makes {places : Place → Prop} (h : t.Clear start names)
    (hMakes : Makes places t t') : t'.Clear start names where
  short := h.short
  noFile other hOther content hFile := h.noFile other hOther content (hMakes.file_iff.mp hFile)

theorem Stands.makes {places : Place → Prop} (h : t.Stands place) (hMakes : Makes places t t') :
    t'.Stands place :=
  fun around hAround => hMakes.directory (h around hAround)

/-- The first of some names are to be followed from where the next leads. -/
theorem Clear.of_cons {next : Place} (h : t.Clear start (name :: names))
    (hNext : ∀ names, advance start (name :: names) = advance next names) :
    t.Clear next names where
  short other hOther := h.short other (List.mem_cons_of_mem name hOther)
  noFile other hOther := by
    rw [← hNext]
    exact h.noFile (name :: other) ((List.prefix_cons_inj name).mpr hOther)

/-- On a clear way a walk arrives, or something is missing. Nothing else can stop it,
for on such a way no file stands where a directory has to be. -/
theorem walk_of_clear (h : t.Clear start names) :
    t.walk start (names ++ [""]) = .ok (advance start names) ∨
      t.walk start (names ++ [""]) = .error .notFound := by
  induction names generalizing start with
  | nil => exact Or.inl rfl
  | cons name names ih =>
      rw [List.cons_append]
      rcases name_cases name with hIdle | rfl | hName
      · rw [walk_idle hIdle, advance_idle hIdle]
        exact ih (h.of_cons (advance_idle hIdle start))
      · rw [walk_up, advance_up]
        exact ih (h.of_cons (advance_up start))
      · have hShort : t.child start name = .ok (t.at? (start ++ [name])) :=
          child_eq_ok_iff.mpr ⟨h.short name List.mem_cons_self, rfl⟩
        rw [walk, if_neg hName.1, if_neg hName.2, hShort, advance_name hName]
        cases hThere : t.at? (start ++ [name]) with
        | none => exact Or.inr rfl
        | some entry =>
            cases entry with
            | directory => exact ih (h.of_cons (advance_name hName start))
            | file content =>
                refine absurd hThere ?_
                have hFirst : advance start [name] = start ++ [name] := advance_name hName start []
                rw [← hFirst]
                exact h.noFile [name] ⟨names, rfl⟩ content

theorem walk_idles {idle : List String} (h : ∀ name ∈ idle, name = "" ∨ name = ".")
    (start : Place) : t.walk start idle = .ok start := by
  induction idle with
  | nil => rfl
  | cons name idle ih =>
      rw [walk_idle (h name List.mem_cons_self)]
      exact ih fun other hOther => h other (List.mem_cons_of_mem name hOther)

/-! Making a directory in one that is there. -/

/-- In a directory that is there a path makes another, unless something is there. -/
theorem makeDirectory_of_walk (hCheck : checkPath path = .ok ())
    (hNames : pathNames path = front ++ [name]) (hSome : name ≠ "")
    (hShort : name.utf8ByteSize ≤ maxNameBytes)
    (hWalk : t.walk (t.origin path) (front ++ [""]) = .ok directory) :
    IsName name ∧ t.at? (directory ++ [name]) = none ∧
        t.makeDirectory path = .ok (t.set (directory ++ [name]) .directory) ∨
      (IsName name → t.at? (directory ++ [name]) ≠ none) ∧
        t.makeDirectory path = .error .exists := by
  have hTarget := target_of_names (t := t) hNames hSome (by simp)
  rw [hCheck, hWalk] at hTarget
  rcases name_cases name with (hEmpty | hDot) | hUp | hName
  · exact absurd hEmpty hSome
  · refine Or.inr ⟨fun hName => absurd (Or.inr hDot) hName.1, ?_⟩
    rw [makeDirectory, hTarget]
    simp [hDot, bind, Except.bind]
  · refine Or.inr ⟨fun hName => absurd hUp hName.2, ?_⟩
    rw [makeDirectory, hTarget]
    simp [hUp, bind, Except.bind]
  · have hDots : ¬ (name = "." ∨ name = "..") :=
      fun hDots => hDots.elim (fun hDot => hName.1 (Or.inr hDot)) hName.2
    cases hThere : t.at? (directory ++ [name]) with
    | none =>
        refine Or.inl ⟨hName, rfl, ?_⟩
        rw [makeDirectory, hTarget]
        simp [hDots, child_eq_ok_iff.mpr ⟨hShort, hThere⟩, bind, Except.bind]
    | some entry =>
        refine Or.inr ⟨fun _ => nofun, ?_⟩
        rw [makeDirectory, hTarget]
        simp [hDots, child_eq_ok_iff.mpr ⟨hShort, hThere⟩, bind, Except.bind]

/-- Where the parent of a path is there already, only the directory at the path itself
is made. -/
theorem makeChain_of_walk (hCheck : checkPath path = .ok ())
    (hNames : pathNames path = front ++ [name]) (hSome : name ≠ "")
    (hShort : name.utf8ByteSize ≤ maxNameBytes)
    (hWalk : t.walk (t.origin path) (front ++ [""]) = .ok directory) (parents : List String) :
    t.makeChain (path :: parents) = t.ensureDirectory path := by
  rcases makeDirectory_of_walk hCheck hNames hSome hShort hWalk with ⟨-, -, hMake⟩ | ⟨-, hMake⟩
  · rw [makeChain, ensureDirectory, hMake]
  · rw [makeChain, ensureDirectory, hMake]

/-- Where something is missing on the way no directory is made, and the reason is just
that. So it is tried with the parent next. -/
theorem makeDirectory_of_missing (hCheck : checkPath path = .ok ())
    (hNames : pathNames path = front ++ [name]) (hSome : name ≠ "")
    (hWalk : t.walk (t.origin path) (front ++ [""]) = .error .notFound) :
    t.makeDirectory path = .error .notFound := by
  rw [makeDirectory, target_of_names hNames hSome (by simp), hCheck, hWalk]
  rfl

/-- A walk that gets through a path as through a directory has found one there. -/
theorem isDirectory_of_walk (hCheck : checkPath path = .ok ()) (hStands : t.Stands (t.origin path))
    (hWalk : t.walk (t.origin path) (pathNames path ++ [""]) = .ok place) :
    t.isDirectory path = true := by
  have hThere : t.at? place = some .directory := by
    refine stands_of_walk hStands hWalk ?_ place List.prefix_rfl
    simp [IsName]
  have hWhole : t.walk (t.origin path) (pathNames path) = .ok place := by
    have hEnd := walk_append hWalk []
    rwa [List.append_nil] at hEnd
  have hEntry : t.entry path = .ok .directory := by
    refine bind_eq_ok_iff.mpr ⟨place, bind_eq_ok_iff.mpr ⟨(), hCheck, hWhole⟩, ?_⟩
    rw [hThere]
  rw [isDirectory, hEntry]

/-- In a directory that is there a path can be made one, and then leads there. The
directories above it come first, so that this applies to one after the other. -/
theorem ensureDirectory_of_walk (hCheck : checkPath path = .ok ())
    (hNames : pathNames path = front ++ [name]) (hSome : name ≠ "")
    (hStands : t.Stands (t.origin path)) (hClear : t.Clear (t.origin path) (pathNames path))
    (hWalk : t.walk (t.origin path) (front ++ [""]) = .ok directory) :
    ∃ t' place, t.ensureDirectory path = (.ok (), t') ∧
      t'.walk (t.origin path) (pathNames path ++ [""]) = .ok place := by
  have hShort : name.utf8ByteSize ≤ maxNameBytes := hClear.short name (by simp [hNames])
  rcases makeDirectory_of_walk hCheck hNames hSome hShort hWalk with
    ⟨hName, hFree, hMake⟩ | ⟨hThere, hMake⟩
  · refine ⟨_, directory ++ [name], by rw [ensureDirectory, hMake], ?_⟩
    have hGrows := (makes_makeDirectory hMake).grows
    rw [hNames, List.append_assoc, walk_append (hGrows.walk hWalk), List.singleton_append,
      walk_name_iff hName]
    exact ⟨hShort, Or.inl ⟨by rw [at?_set (by simp), if_pos rfl], rfl⟩⟩
  · have hEnd : ∃ place, t.walk (t.origin path) (pathNames path ++ [""]) = .ok place := by
      rcases walk_of_clear hClear with hOk | hMissing
      · exact ⟨_, hOk⟩
      · rw [hNames, List.append_assoc, walk_append hWalk, List.singleton_append] at hMissing ⊢
        rcases name_cases name with hIdle | rfl | hName
        · exact ⟨directory, walk_idle hIdle⟩
        · exact ⟨directory.dropLast, walk_up⟩
        · cases hEntry : t.at? (directory ++ [name]) with
          | none => exact absurd hEntry (hThere hName)
          | some entry =>
              rw [walk, if_neg hName.1, if_neg hName.2, child_eq_ok_iff.mpr ⟨hShort, hEntry⟩]
                at hMissing
              cases entry with
              | directory => cases hMissing
              | file content => cases hMissing
    obtain ⟨place, hEnd⟩ := hEnd
    refine ⟨t, place, ?_, hEnd⟩
    rw [ensureDirectory, hMake]
    simp [settle, isDirectory_of_walk hCheck hStands hEnd]

/-- A path is accepted if it has no zero character and at least one other, and is not
too long. -/
theorem checkPath_eq_ok_iff :
    checkPath path = .ok () ↔
      '\x00' ∉ path.toList ∧ path ≠ "" ∧ path.utf8ByteSize ≤ maxPathBytes := by
  unfold checkPath
  split_ifs with hNul hEmpty hLong
  · simpa using fun h => absurd (List.contains_iff_mem.mp hNul) h
  · simp [String.isEmpty_iff.mp hEmpty]
  · simp [Nat.not_le.mpr hLong]
  · simp only [true_iff]
    exact ⟨fun hMem => hNul (List.contains_iff_mem.mpr hMem),
      fun hNone => hEmpty (String.isEmpty_iff.mpr hNone), Nat.not_lt.mp hLong⟩

/-- The beginning of a path can be a path where the whole can. -/
theorem checkPath_of_initial {other : String} (h : checkPath path = .ok ())
    (hInitial : other.toList <+: path.toList) (hSome : other ≠ "") : checkPath other = .ok () := by
  obtain ⟨hNul, -, hSize⟩ := checkPath_eq_ok_iff.mp h
  refine checkPath_eq_ok_iff.mpr ⟨fun hMem => hNul (hInitial.subset hMem), hSome, ?_⟩
  obtain ⟨rest, hRest⟩ := hInitial
  have hWhole : path = other ++ String.ofList rest := by
    rw [← String.toList_inj, String.toList_append, String.toList_ofList, hRest]
  rw [hWhole, String.utf8ByteSize_append] at hSize
  exact Nat.le_of_add_right_le hSize

/-- What can be a path can be one without its last pieces. -/
theorem checkPath_of_pieces {p q : String} {front : List Piece} {piece : Piece}
    (h : checkPath p = .ok ()) (hTrimmed : trimIdle (pieces p) = front ++ [piece])
    (hInitial : pieces q <+: front) (hSome : q ≠ "") : checkPath q = .ok () := by
  have hWhole : front ++ [piece] <+: pieces p := hTrimmed ▸ trimIdle_initial (pieces p)
  have hFront : front <+: pieces p := (List.prefix_append front [piece]).trans hWhole
  exact checkPath_of_initial h (toList_initial (hInitial.trans hFront)) hSome

/-- A way that is clear along some pieces is clear along every path that consists of the
first of them. -/
theorem Clear.of_pieces {q : String} {front : List Piece}
    (h : t.Clear start (front.map String.ofList)) (hInitial : pieces q <+: front) :
    t.Clear start (pathNames q) := by
  obtain ⟨rest, rfl⟩ := hInitial
  refine h.of_initial ⟨rest.map String.ofList, ?_⟩
  rw [pathNames, ← List.map_append]

theorem idle_ofList {pieces : List Piece} (h : ∀ piece ∈ pieces, isIdle piece = true) :
    ∀ name ∈ pieces.map String.ofList ++ [""], name = "" ∨ name = "." := by
  simp only [List.mem_append, List.mem_map, List.mem_singleton]
  rintro name (⟨piece, hPiece, rfl⟩ | rfl)
  · have hIdle := h piece hPiece
    rw [isIdle, Bool.or_eq_true, beq_iff_eq, beq_iff_eq] at hIdle
    rcases hIdle with rfl | rfl
    · exact Or.inl rfl
    · exact Or.inr rfl
  · exact Or.inl rfl

/-- What is passed over at the end of a path leads on from nowhere. -/
theorem walk_of_trimIdle {front : List Piece} (hFront : pieces path = trimIdle front)
    (hWalk : t.walk start (pathNames path ++ [""]) = .ok place) :
    t.walk start (front.map String.ofList ++ [""]) = .ok place := by
  obtain ⟨idle, hParts, hIdle⟩ := exists_trimIdle_append front
  have hNames : front.map String.ofList = pathNames path ++ idle.map String.ofList := by
    rw [hParts, List.map_append, pathNames, hFront]
  rw [hNames, List.append_assoc, walk_append hWalk, walk_idles (idle_ofList hIdle)]

/-- Where no file is on the way all that is missing above a path can be made, and then
its names lead there. The induction is on the paths above, each the parent of the one
before. -/
theorem makeChain_of_clear {p q : String} {front : List Piece} {piece : Piece} {n : Nat}
    (hTrimmed : trimIdle (pieces p) = front ++ [piece]) (hParent : parent? p = some q)
    (hEnough : parent? q = none ∨ (pieces q).length ≤ n) (hCheck : checkPath p = .ok ())
    (hStands : t.Stands (t.origin p))
    (hClear : t.Clear (t.origin p) (front.map String.ofList)) :
    ∃ t' place, t.makeChain (ancestorsWithin n q) = (.ok (), t') ∧
      t'.walk (t.origin p) (front.map String.ofList ++ [""]) = .ok place := by
  induction n generalizing p q front piece with
  | zero =>
      rcases parent_cases hTrimmed hParent with
        ⟨-, hIdle⟩ | ⟨before, last, above, hPieces, -, -, -, hAbove⟩
      · exact ⟨t, _, rfl, walk_idles (idle_ofList hIdle) _⟩
      · rw [hAbove, hPieces, List.length_append] at hEnough
        rcases hEnough with hTop | hNone
        · cases hTop
        · cases hNone
  | succ n ih =>
      rcases parent_cases hTrimmed hParent with
        ⟨hTop, hIdle⟩ | ⟨before, last, above, hPieces, hLast, hFront, hRoot, hAbove⟩
      · rw [ancestorsWithin_of_top hTop]
        exact ⟨t, _, rfl, walk_idles (idle_ofList hIdle) _⟩
      · have hTrimmed' : trimIdle (pieces q) = before ++ [last] := by
          rw [hFront, trimIdle_trimIdle, ← hFront, hPieces]
        have hInitial : pieces q <+: front := hFront ▸ trimIdle_initial front
        have hNames : pathNames q = before.map String.ofList ++ [String.ofList last] := by
          rw [pathNames, hPieces, List.map_append, List.map_singleton]
        have hNotEmpty : q ≠ "" := by
          rintro rfl
          cases hAbove
        have hCheck' := checkPath_of_pieces hCheck hTrimmed hInitial hNotEmpty
        have hSome : String.ofList last ≠ "" := fun hNone => hLast (String.ofList_inj.mp hNone)
        rw [← origin_congr hRoot] at hStands hClear ⊢
        have hClear' := hClear.of_pieces hInitial
        have hBefore : t.Clear (t.origin q) (before.map String.ofList) :=
          hClear'.of_initial ⟨_, hNames.symm⟩
        rw [ancestorsWithin, hAbove]
        dsimp only
        -- the parent is made where it can be, else after all that is above it
        rcases walk_of_clear hBefore with hWalk | hMissing
        · obtain ⟨t', place, hEnsure, hWalk'⟩ :=
            ensureDirectory_of_walk hCheck' hNames hSome hStands hClear' hWalk
          refine ⟨t', place, ?_, walk_of_trimIdle hFront hWalk'⟩
          have hShort := hClear'.short (String.ofList last) (by simp [hNames])
          rw [makeChain_of_walk hCheck' hNames hSome hShort hWalk, hEnsure]
        · have hEnough' : parent? above = none ∨ (pieces above).length ≤ n := by
            rw [hAbove] at hEnough
            have hLength := hEnough.resolve_left (Option.some_ne_none _)
            exact (length_parent hAbove).imp_right fun hShorter => by omega
          obtain ⟨made, around, hChain, hAround⟩ :=
            ih hTrimmed' hAbove hEnough' hCheck' hStands hBefore
          have hMakes := makes_makeChain t (ancestorsWithin n above)
          rw [hChain] at hMakes
          have hOrigin : made.origin q = t.origin q := hMakes.grows.origin_eq q
          obtain ⟨t', place, hEnsure, hWalk'⟩ := ensureDirectory_of_walk hCheck' hNames hSome
            (hOrigin ▸ hStands.makes hMakes) (hOrigin ▸ hClear'.makes hMakes) (hOrigin ▸ hAround)
          refine ⟨t', place, ?_, walk_of_trimIdle hFront (hOrigin ▸ hWalk')⟩
          rw [makeChain, makeDirectory_of_missing hCheck' hNames hSome hMissing]
          simp only [hChain, hEnsure]

end FileTree

namespace Storage

variable {t t' : FileTree} {key : String} {cut : Cut} {result : Except StorageError Unit}

/-- To prepare for a key makes only directories on the way. This holds as well where it
fails half way, so what it leaves behind is known. -/
theorem makes_prepare (t : FileTree) (key : String) :
    FileTree.Makes (t.OnWay key) t (prepare t key).2 := by
  unfold prepare directoryFor
  cases hParent : Path.parent? key with
  | none => exact .refl t
  | some parent =>
      rw [Option.filter_some]
      split_ifs
      · refine (FileTree.makes_makeChain t (Path.ancestors parent)).mono ?_
        rintro place ⟨other, hOther, rfl⟩
        exact FileTree.onWay_of_mem_ancestors hParent hOther
      · exact .refl t

/-- A cut that is not stored leaves no more than directories on the way, and one that is
stored is written where these are made. -/
theorem store_cases (h : store t key cut = (result, t')) :
    (∃ e, result = .error e) ∧ FileTree.Makes (t.OnWay key) t t' ∨
      result = .ok () ∧ checkKey key = .ok () ∧ ∃ made, prepare t key = (.ok (), made) ∧
        FileTree.Makes (t.OnWay key) t made ∧
          made.write key (Text.Utf8.encode cut.prettyJson) = .ok t' := by
  have hMakes := makes_prepare t key
  unfold store at h
  split at h
  · next e hKey =>
    cases h
    exact Or.inl ⟨⟨e, rfl⟩, .refl t⟩
  · next hKey =>
    split at h
    · next e made hPrepare =>
      cases h
      rw [hPrepare] at hMakes
      exact Or.inl ⟨⟨e, rfl⟩, hMakes⟩
    · next made hPrepare =>
      rw [hPrepare] at hMakes
      split at h
      · cases h
        exact Or.inl ⟨⟨_, rfl⟩, hMakes⟩
      · next written hWrite =>
        cases h
        exact Or.inr ⟨rfl, hKey, made, hPrepare, hMakes, hWrite⟩

end Storage

end RoughCut
