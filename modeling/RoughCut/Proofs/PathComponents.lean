import RoughCut.Proofs.SidecarNames

/-!
What paths are made of. A path is where it begins and the names and steps up that
follow; repeated slashes, slashes at the end and single dots after the beginning are no
part of it. A path that ends in a name is its parent with that name, and joining a name
to a directory adds it to what the directory is made of.
-/

namespace RoughCut.Path

variable {p q name parent : String} {piece : Piece} {front ps : List Piece} {c : Char}

/-- A part of a path: the root or a dot at its beginning, a step up, or a name. -/
inductive Component where
  | root
  | here
  | up
  | name (text : String)
  deriving DecidableEq

/-- The part that a piece is, if it leads somewhere. -/
def component? (piece : Piece) : Option Component :=
  if isIdle piece then none
  else if piece = ['.', '.'] then some .up
  else some (.name (String.ofList piece))

/-- The root where a path begins there, or the dot that it begins with. -/
def beginning (p : String) : List Component :=
  if isAbsolute p then [.root]
  else if (pieces p).head? = some ['.'] then [.here]
  else []

/-- The parts of a path in order. Two paths are one and the same if they have the
same parts. -/
def components (p : String) : List Component :=
  beginning p ++ (pieces p).filterMap component?

example : components "/takes//./day1/" = components "/takes/day1" ∧
    components "./takes" ≠ components "takes" := by
  decide

/-! Pieces. -/

theorem pieces_ne_nil (p : String) : pieces p ≠ [] :=
  List.splitOn_ne_nil '/' p.toList

theorem pieces_of_no_slash (h : '/' ∉ p.toList) : pieces p = [p.toList] :=
  List.splitOn_eq_singleton h

/-- Only a path from the root begins with an empty piece and goes on. -/
theorem isAbsolute_iff : isAbsolute p = true ↔ ∃ rest, rest ≠ [] ∧ pieces p = [] :: rest := by
  unfold isAbsolute
  rw [beq_iff_eq]
  constructor
  · intro h
    obtain ⟨rest, hRest⟩ := List.head?_eq_some_iff.mp h
    refine ⟨rest.splitOn '/', List.splitOn_ne_nil '/' rest, ?_⟩
    rw [pieces, hRest, List.splitOn_cons_eq_if_modifyHead, if_pos (beq_self_eq_true '/')]
  · rintro ⟨rest, hRest, hPieces⟩
    have hWhole : p.toList = ['/'].intercalate ([] :: rest) := by
      rw [← hPieces, pieces, List.intercalate_splitOn]
    cases rest with
    | nil => exact absurd rfl hRest
    | cons next rest => simp [hWhole]

/-- Pieces that have no slash in them can be joined and parted again. -/
theorem pieces_ofPieces (hSome : ps ≠ []) (hSlash : ∀ piece ∈ ps, '/' ∉ piece) :
    pieces (ofPieces ps) = ps := by
  rw [pieces, ofPieces, String.toList_ofList]
  exact List.splitOn_intercalate '/' hSlash hSome

/-- How a path begins is told by its first piece and by whether it starts from the root.
-/
theorem beginning_congr (hRoot : isAbsolute p = isAbsolute q)
    (hHead : (pieces p).head? = (pieces q).head?) : beginning p = beginning q := by
  rw [beginning, beginning, hRoot, hHead]

/-- A path that begins with a name begins neither at the root nor with a dot. -/
theorem beginning_of_name (hHead : (pieces p).head? = some piece) (h : isName piece = true) :
    beginning p = [] := by
  rw [isName, isIdle] at h
  have hRoot : ¬ isAbsolute p = true := by
    rw [isAbsolute_iff]
    rintro ⟨rest, -, hPieces⟩
    rw [hPieces, List.head?_cons, Option.some_inj] at hHead
    simp [← hHead] at h
  have hDot : (pieces p).head? ≠ some ['.'] := by
    rw [hHead]
    rintro hSame
    obtain rfl := Option.some.inj hSame
    simp at h
  rw [beginning, if_neg hRoot, if_neg hDot]

/-- An empty piece and a single dot lead nowhere, so they are no part of a path. -/
theorem component?_of_idle (h : isIdle piece = true) : component? piece = none :=
  if_pos h

/-- A piece that leads into a directory is a part of a path under its own name. -/
theorem component?_of_name (h : isName piece = true) :
    component? piece = some (.name (String.ofList piece)) := by
  rw [isName, Bool.and_eq_true, Bool.not_eq_true', bne_iff_ne] at h
  rw [component?, if_neg (by simp [h.1]), if_neg h.2]

theorem filterMap_component?_of_idle (h : ∀ piece ∈ ps, isIdle piece = true) :
    ps.filterMap component? = [] := by
  rw [List.filterMap_eq_nil_iff]
  exact fun piece hPiece => component?_of_idle (h piece hPiece)

/-- What is dropped from the end of a path leads nowhere. It is slashes and single dots,
and no part of the path is lost with them. -/
theorem exists_trimIdle_append (ps : List Piece) :
    ∃ idle, ps = trimIdle ps ++ idle ∧ ∀ piece ∈ idle, isIdle piece = true := by
  cases ps with
  | nil => exact ⟨[], rfl, by simp⟩
  | cons first rest =>
      refine ⟨(rest.reverse.takeWhile isIdle).reverse, ?_, ?_⟩
      · rw [trimIdle, List.cons_append, ← List.reverse_append, List.takeWhile_append_dropWhile,
          List.reverse_reverse]
      · intro piece hPiece
        exact List.mem_takeWhile_imp (List.mem_reverse.mp hPiece)

/-- Slashes and single dots at the end of a path change nothing about its parts. -/
theorem filterMap_component?_trimIdle (ps : List Piece) :
    (trimIdle ps).filterMap component? = ps.filterMap component? := by
  obtain ⟨idle, hParts, hIdle⟩ := exists_trimIdle_append ps
  conv_rhs => rw [hParts]
  rw [List.filterMap_append, filterMap_component?_of_idle hIdle, List.append_nil]

/-- The first piece stays whatever it is, so no path is trimmed to nothing. -/
theorem trimIdle_eq_nil_iff : trimIdle ps = [] ↔ ps = [] := by
  cases ps <;> simp [trimIdle]

/-- Trimming at the end leaves the first piece as it is, even an idle one. -/
theorem head?_trimIdle (ps : List Piece) : (trimIdle ps).head? = ps.head? := by
  cases ps <;> simp [trimIdle]

theorem trimIdle_initial (ps : List Piece) : trimIdle ps <+: ps := by
  obtain ⟨idle, hParts, -⟩ := exists_trimIdle_append ps
  exact ⟨idle, hParts.symm⟩

/-- The characters of joined pieces are those of the pieces, and a slash where there are
two pieces or more. -/
theorem mem_intercalate_iff :
    c ∈ ['/'].intercalate ps ↔ c = '/' ∧ 2 ≤ ps.length ∨ ∃ piece ∈ ps, c ∈ piece := by
  induction ps with
  | nil => simp
  | cons first rest ih =>
      cases rest with
      | nil => simp
      | cons next rest =>
          rw [List.intercalate_cons_cons, List.mem_append, List.mem_append, List.mem_singleton, ih]
          simp only [List.length_cons, List.mem_cons, exists_eq_or_imp, Nat.le_add_left, and_true]
          tauto

/-- A character of joined pieces is in one of them or stands between them. -/
theorem mem_of_mem_ofPieces (h : c ∈ (ofPieces ps).toList) :
    c = '/' ∨ ∃ piece ∈ ps, c ∈ piece := by
  rw [ofPieces, String.toList_ofList, mem_intercalate_iff] at h
  exact h.imp_left And.left

theorem mem_of_mem_pieces (hPiece : piece ∈ pieces p) (h : c ∈ piece) : c ∈ p.toList := by
  have hWhole : p.toList = ['/'].intercalate (pieces p) := by
    rw [pieces, List.intercalate_splitOn]
  rw [hWhole, mem_intercalate_iff]
  exact Or.inr ⟨piece, hPiece, h⟩

theorem mem_of_mem_trimIdle (hPiece : piece ∈ trimIdle (pieces p)) (h : c ∈ piece) :
    c ∈ p.toList :=
  mem_of_mem_pieces ((trimIdle_initial (pieces p)).subset hPiece) h

/-! Names at the end. -/

/-- A path has a last name if its last piece that leads anywhere is one. What comes
before that piece is the rest. -/
theorem splitName_eq_some_iff :
    splitName p = some (front, piece) ↔
      trimIdle (pieces p) = front ++ [piece] ∧ isName piece = true := by
  unfold splitName
  dsimp only
  generalize trimIdle (pieces p) = ps
  constructor
  · intro h
    obtain ⟨last, hLast, hSame⟩ := Option.map_eq_some_iff.mp h
    obtain ⟨hLast, hName⟩ := Option.filter_eq_some_iff.mp hLast
    obtain ⟨front', rfl⟩ := List.getLast?_eq_some_iff.mp hLast
    rw [List.dropLast_concat] at hSame
    cases hSame
    exact ⟨rfl, hName⟩
  · rintro ⟨rfl, hName⟩
    simp [hName]

theorem name?_eq_some_iff :
    name? p = some name ↔ ∃ front, splitName p = some (front, name.toList) := by
  unfold name?
  constructor
  · intro h
    obtain ⟨⟨front, piece⟩, hSplit, rfl⟩ := Option.map_eq_some_iff.mp h
    exact ⟨front, by rw [hSplit, String.toList_ofList]⟩
  · rintro ⟨front, hSplit⟩
    rw [hSplit]
    exact congrArg some String.ofList_toList

/-- The parent of a path that has a single piece is the empty path, unless the path is
empty itself. -/
theorem parent?_of_one (h : trimIdle (pieces p) = [piece]) (hSome : piece ≠ []) :
    parent? p = some "" := by
  rw [parent?, h]
  exact if_neg hSome

/-- The parent of a longer path is what comes before its last piece, without slashes and
dots at the end, or the root. -/
theorem parent?_of_more (h : trimIdle (pieces p) = front ++ [piece]) (hSome : front ≠ []) :
    parent? p = some (if trimIdle front = [[]] then "/" else ofPieces (trimIdle front)) := by
  rw [parent?, h]
  split
  · next hNone => exact absurd hNone (List.concat_ne_nil _ _)
  · next only hOne =>
      have hFront : front = [] := (List.append_eq_singleton_iff.mp hOne).elim And.left
        fun hPiece => absurd hPiece.2 (List.cons_ne_nil _ _)
      exact absurd hFront hSome
  · rw [List.dropLast_concat]
    split
    · next hRoot => rw [if_pos hRoot]
    · next hOther => rw [if_neg hOther]

/-- Only a path that leads nowhere, from the root or otherwise, has no parent. -/
theorem idle_of_top {p : String} (h : parent? p = none) :
    ∀ piece ∈ pieces p, isIdle piece = true := by
  rcases List.eq_nil_or_concat' (trimIdle (pieces p)) with hNone | ⟨front, piece, hTrimmed⟩
  · exact absurd (trimIdle_eq_nil_iff.mp hNone) (pieces_ne_nil p)
  · by_cases hFront : front = []
    · subst hFront
      by_cases hPiece : piece = []
      · subst hPiece
        obtain ⟨idle, hParts, hIdle⟩ := exists_trimIdle_append (pieces p)
        rw [hParts, hTrimmed]
        simpa using ⟨rfl, hIdle⟩
      · rw [parent?_of_one hTrimmed hPiece] at h
        cases h
    · rw [parent?_of_more hTrimmed hFront] at h
      cases h

theorem mem_of_mem_name (h : name? p = some name) (hMem : c ∈ name.toList) : c ∈ p.toList := by
  obtain ⟨front, hSplit⟩ := name?_eq_some_iff.mp h
  obtain ⟨hTrimmed, -⟩ := splitName_eq_some_iff.mp hSplit
  exact mem_of_mem_trimIdle (by simp [hTrimmed]) hMem

/-- A parent has only characters of its path, and perhaps slashes where the path has
more of them. -/
theorem mem_of_mem_parent (h : parent? p = some parent) (hMem : c ∈ parent.toList) :
    c = '/' ∨ c ∈ p.toList := by
  rcases List.eq_nil_or_concat' (trimIdle (pieces p)) with hNone | ⟨front, piece, hTrimmed⟩
  · exact absurd (trimIdle_eq_nil_iff.mp hNone) (pieces_ne_nil p)
  by_cases hSome : front = []
  · subst hSome
    have hPiece : piece ≠ [] := by
      rintro rfl
      rw [parent?, hTrimmed] at h
      cases h
    rw [parent?_of_one hTrimmed hPiece] at h
    obtain rfl := Option.some.inj h
    cases hMem
  · rw [parent?_of_more hTrimmed hSome] at h
    obtain rfl := Option.some.inj h
    split_ifs at hMem
    · exact Or.inl (List.mem_singleton.mp hMem)
    · refine (mem_of_mem_ofPieces hMem).imp_right ?_
      rintro ⟨inner, hInner, hMem⟩
      have hFront : inner ∈ front := (trimIdle_initial front).subset hInner
      exact mem_of_mem_trimIdle (by simp [hTrimmed, hFront]) hMem

theorem slash_not_mem_of_initial (h : ps <+: pieces p) : ∀ piece ∈ ps, '/' ∉ piece :=
  fun _ hPiece => slash_not_mem_of_mem_pieces (h.subset hPiece)

/-- The first pieces of a path are absolute as the path is, unless they are but the root. -/
theorem isAbsolute_ofPieces (h : ps <+: pieces p) (hSome : ps ≠ []) (hRoot : ps ≠ [[]]) :
    isAbsolute (ofPieces ps) = isAbsolute p := by
  have hPieces := pieces_ofPieces hSome (slash_not_mem_of_initial h)
  obtain ⟨rest, hRest⟩ := h
  rw [Bool.eq_iff_iff, isAbsolute_iff, isAbsolute_iff, hPieces, ← hRest]
  cases ps with
  | nil => exact absurd rfl hSome
  | cons first ps =>
      have hMore : first = [] → ps ≠ [] := fun hFirst hNone => hRoot (by rw [hFirst, hNone])
      constructor
      · rintro ⟨others, hOthers, hSame⟩
        cases hSame
        exact ⟨ps ++ rest, by simp [hOthers], rfl⟩
      · rintro ⟨others, -, hSame⟩
        cases hSame
        exact ⟨ps, hMore rfl, rfl⟩

/-- The first pieces of a path begin as the path does, unless they are but the root. -/
theorem beginning_ofPieces (h : ps <+: pieces p) (hSome : ps ≠ []) (hRoot : ps ≠ [[]]) :
    beginning (ofPieces ps) = beginning p := by
  refine beginning_congr (isAbsolute_ofPieces h hSome hRoot) ?_
  rw [pieces_ofPieces hSome (slash_not_mem_of_initial h)]
  obtain ⟨rest, hRest⟩ := h
  rw [← hRest, List.head?_append_of_ne_nil ps hSome]

/-- A path that ends in a name is its parent with that name. -/
theorem exists_parent_of_splitName (h : splitName p = some (front, piece)) :
    ∃ parent, parent? p = some parent ∧
      components p = components parent ++ [.name (String.ofList piece)] := by
  obtain ⟨hTrimmed, hName⟩ := splitName_eq_some_iff.mp h
  have hParts : components p =
      beginning p ++ front.filterMap component? ++ [.name (String.ofList piece)] := by
    rw [components, ← filterMap_component?_trimIdle, hTrimmed, List.filterMap_append,
      List.append_assoc, List.filterMap_cons, component?_of_name hName, List.filterMap_nil]
  have hPrefix : front ++ [piece] <+: pieces p := hTrimmed ▸ trimIdle_initial (pieces p)
  by_cases hSome : front = []
  · subst hSome
    have hHead : (pieces p).head? = some piece := by
      rw [← head?_trimIdle, hTrimmed]
      rfl
    have hEmpty : piece ≠ [] := by
      rintro rfl
      cases hName
    have hNothing : components "" = [] := rfl
    exact ⟨"", parent?_of_one hTrimmed hEmpty, by
      rw [hParts, beginning_of_name hHead hName, hNothing]
      rfl⟩
  · refine ⟨_, parent?_of_more hTrimmed hSome, ?_⟩
    rw [hParts, ← filterMap_component?_trimIdle front]
    split_ifs with hRoot
    · have hSlash : components "/" = [.root] := rfl
      have hBegins : beginning p = [.root] := by
        obtain ⟨rest, hRest⟩ := hPrefix
        have hHead : front.head? = some [] := by rw [← head?_trimIdle, hRoot]; rfl
        obtain ⟨others, rfl⟩ := List.head?_eq_some_iff.mp hHead
        exact if_pos (isAbsolute_iff.mpr ⟨others ++ [piece] ++ rest, by simp, by simp [← hRest]⟩)
      rw [hRoot, hBegins, hSlash]
      rfl
    · have hKept : trimIdle front <+: pieces p :=
        (trimIdle_initial front).trans ((List.prefix_append front [piece]).trans hPrefix)
      have hKeptSome : trimIdle front ≠ [] := fun hNone => hSome (trimIdle_eq_nil_iff.mp hNone)
      rw [components, beginning_ofPieces hKept hKeptSome hRoot,
        pieces_ofPieces hKeptSome (slash_not_mem_of_initial hKept)]

/-! Joining. -/

/-- Whether a joined path starts from the root is told by the directory, unless that is
empty. -/
theorem isAbsolute_join {directory : String} (h : directory ≠ "") (name : String) :
    isAbsolute (join directory name) = isAbsolute directory := by
  have hSome : directory.toList ≠ [] := by simpa using h
  have hEmpty : ¬ directory.isEmpty = true := by simpa using h
  unfold join isAbsolute
  rw [if_neg hEmpty]
  split_ifs <;> simp [List.head?_append_of_ne_nil _ hSome]

theorem isName_toList (h : FileTree.IsName name) : isName name.toList = true := by
  rw [isName_iff, String.ofList_toList]
  exact h

theorem eq_empty_of_pieces (h : pieces p = [[]]) : p = "" := by
  have hWhole : p.toList = ['/'].intercalate (pieces p) := by
    rw [pieces, List.intercalate_splitOn]
  rw [h] at hWhole
  exact String.toList_inj.mp hWhole

/-- A name that is joined to a directory is the last part of the path. -/
theorem components_join (directory : String) (hSlash : '/' ∉ name.toList)
    (hName : FileTree.IsName name) :
    components (join directory name) = components directory ++ [.name name] := by
  obtain ⟨front, hFront, hPieces⟩ := exists_front_join directory
  have hPieces := hPieces name hSlash
  have hPiece := isName_toList hName
  have hKept : front.filterMap component? = (pieces directory).filterMap component? := by
    rcases hFront with rfl | hMore
    · rfl
    · rw [hMore, List.filterMap_append]
      exact (List.append_nil _).symm
  have hBegins : beginning (join directory name) = beginning directory := by
    by_cases hEmpty : directory = ""
    · subst hEmpty
      have hJoin : (pieces (join "" name)).head? = some name.toList :=
        congrArg List.head? (pieces_of_no_slash hSlash)
      rw [beginning_of_name hJoin hPiece]
      decide
    · refine beginning_congr (isAbsolute_join hEmpty name) ?_
      rw [hPieces]
      rcases hFront with rfl | hMore
      · exact List.head?_append_of_ne_nil _ (pieces_ne_nil directory)
      · have hSome : front ≠ [] := by
          rintro rfl
          exact hEmpty (eq_empty_of_pieces hMore)
        rw [hMore, List.head?_append_of_ne_nil _ hSome, List.head?_append_of_ne_nil _ hSome]
  rw [components, components, hBegins, hPieces, List.filterMap_append, hKept,
    List.filterMap_cons, component?_of_name hPiece, String.ofList_toList, List.filterMap_nil,
    List.append_assoc]

/-- A name that is joined to a directory is the name in which the path ends. -/
theorem name?_join (directory : String) (hSlash : '/' ∉ name.toList)
    (hName : FileTree.IsName name) : name? (join directory name) = some name := by
  obtain ⟨front, -, hPieces⟩ := exists_front_join directory
  have hLast := isName_toList hName
  exact name?_eq_some_iff.mpr ⟨front, splitName_eq_some_iff.mpr
    ⟨by rw [hPieces name hSlash, trimIdle_concat hLast], hLast⟩⟩

/-- The directory to which a name is joined is where the path lies. It may be written in
another way there, as with a slash at its end. -/
theorem exists_parent_join (directory : String) (hSlash : '/' ∉ name.toList)
    (hName : FileTree.IsName name) :
    ∃ parent, parent? (join directory name) = some parent ∧
      components parent = components directory := by
  obtain ⟨front, hSplit⟩ := name?_eq_some_iff.mp (name?_join directory hSlash hName)
  obtain ⟨parent, hParent, hParts⟩ := exists_parent_of_splitName hSplit
  rw [components_join directory hSlash hName, String.ofList_toList,
    List.append_cancel_right_eq] at hParts
  exact ⟨parent, hParent, hParts.symm⟩

/-! Stems. -/

/-- A name without its extension: all before its last dot, or the whole name if it has
no dot but perhaps at its very start. -/
inductive IsStem : Piece → Piece → Prop where
  | whole {name : Piece} (h : '.' ∉ name.tail) : IsStem name name
  | extended {stem extension : Piece} (hSome : stem ≠ []) (h : '.' ∉ extension) :
      IsStem (stem ++ '.' :: extension) stem

/-- What is cut off at the last dot is a stem of the name, also where nothing is cut
off. -/
theorem isStem_nameStem (name : Piece) : IsStem name (nameStem name) := by
  unfold nameStem splitDot
  cases hParts : Text.partLast? '.' name with
  | none => exact .whole (Text.not_mem_tail_of_partLast? hParts)
  | some parts =>
      obtain ⟨stem, extension⟩ := parts
      obtain ⟨rfl, hDots, hSome⟩ := Text.of_partLast? hParts
      exact .extended hSome hDots

end RoughCut.Path
