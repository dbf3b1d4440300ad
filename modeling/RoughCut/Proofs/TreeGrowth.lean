import Mathlib.Tactic.Common
import RoughCut.FileTree
import RoughCut.Proofs.Json.Grammar

/-!
What the operations on a file tree leave as it was. Nothing is ever removed: a
directory stays one, a file stays as it is unless it is written to, and what comes
without being written is a directory. So a path that leads somewhere goes on to lead
there.
-/

namespace RoughCut.FileTree

open Json

variable {t t' : FileTree} {path name : String} {start place : Place} {names : List String}

/-- Whether a name leads from a directory to what stands in it. -/
def IsName (name : String) : Prop :=
  ¬ (name = "" ∨ name = ".") ∧ name ≠ ".."

/-- Where names lead from a place, whatever is on the way. -/
def advance : Place → List String → Place
  | place, [] => place
  | place, name :: names =>
    if name = "" ∨ name = "." then advance place names
    else if name = ".." then advance place.dropLast names
    else advance (place ++ [name]) names

/-- Where a path leads, whatever is on the way. -/
def placeOf (t : FileTree) (path : String) : Place :=
  advance (t.origin path) (pathNames path)

/-- A piece of a path leads nowhere, up, or from a directory to what stands in it. -/
theorem name_cases (name : String) : (name = "" ∨ name = ".") ∨ name = ".." ∨ IsName name := by
  unfold IsName
  tauto

theorem advance_idle (h : name = "" ∨ name = ".") (place : Place) (names : List String) :
    advance place (name :: names) = advance place names :=
  if_pos h

theorem advance_up (place : Place) (names : List String) :
    advance place (".." :: names) = advance place.dropLast names :=
  rfl

theorem advance_name (h : IsName name) (place : Place) (names : List String) :
    advance place (name :: names) = advance (place ++ [name]) names := by
  rw [advance, if_neg h.1, if_neg h.2]

/-- Names that lead from one place to another can be followed in two parts. -/
theorem advance_append (place : Place) (front rest : List String) :
    advance place (front ++ rest) = advance (advance place front) rest := by
  induction front generalizing place with
  | nil => rfl
  | cons name front ih =>
      rw [List.cons_append]
      rcases name_cases name with hIdle | rfl | hName
      · rw [advance_idle hIdle, advance_idle hIdle, ih]
      · rw [advance_up, advance_up, ih]
      · rw [advance_name hName, advance_name hName, ih]

/-! Walks. -/

/-- An empty name or a single dot leads nowhere, and needs nothing to be there. -/
theorem walk_idle (h : name = "" ∨ name = ".") :
    t.walk start (name :: names) = t.walk start names := by
  rw [walk, if_pos h]

/-- Two dots lead up from a directory. Nothing is asked of the place that is left, for a
walk has come to it as to a directory. -/
theorem walk_up : t.walk start (".." :: names) = t.walk start.dropLast names := by
  rw [walk]
  rfl

/-- A name leads into a directory, or it is the last and leads to a file. -/
theorem walk_name_iff (h : IsName name) :
    t.walk start (name :: names) = .ok place ↔ name.utf8ByteSize ≤ maxNameBytes ∧
      (t.at? (start ++ [name]) = some .directory ∧ t.walk (start ++ [name]) names = .ok place ∨
        (∃ content, t.at? (start ++ [name]) = some (.file content)) ∧
          names = [] ∧ place = start ++ [name]) := by
  rw [walk, if_neg h.1, if_neg h.2, child]
  by_cases hLong : maxNameBytes < name.utf8ByteSize
  · simp [hLong, Nat.not_le.mpr hLong]
  · rw [if_neg hLong]
    cases t.at? (start ++ [name]) with
    | none => simp
    | some entry =>
        cases entry with
        | directory => simp [Nat.not_lt.mp hLong]
        | file content =>
            by_cases hLast : names = [] <;> simp [hLast, Nat.not_lt.mp hLong, eq_comm]

/-- A walk that arrives does so where the names lead by themselves. What stands on the
way decides only whether it arrives. -/
theorem eq_advance_of_walk (h : t.walk start names = .ok place) :
    place = advance start names := by
  induction names generalizing start with
  | nil =>
      cases h
      rfl
  | cons name names ih =>
      rcases name_cases name with hIdle | rfl | hName
      · rw [walk_idle hIdle] at h
        rw [advance_idle hIdle, ← ih h]
      · rw [walk_up] at h
        rw [advance_up, ← ih h]
      · rw [advance_name hName]
        obtain ⟨_, ⟨_, hWalk⟩ | ⟨_, rfl, rfl⟩⟩ := (walk_name_iff hName).mp h
        · exact ih hWalk
        · rfl

/-- A walk that ends in a directory can go on from there. -/
theorem walk_append {front : List String} (h : t.walk start (front ++ [""]) = .ok place)
    (rest : List String) : t.walk start (front ++ rest) = t.walk place rest := by
  induction front generalizing start with
  | nil =>
      cases h
      rfl
  | cons name front ih =>
      rw [List.cons_append] at h ⊢
      rcases name_cases name with hIdle | rfl | hName
      · rw [walk_idle hIdle] at h ⊢
        exact ih h
      · rw [walk_up] at h ⊢
        exact ih h
      · obtain ⟨hShort, ⟨hThere, hWalk⟩ | ⟨_, hLast, _⟩⟩ := (walk_name_iff hName).mp h
        · rw [walk, if_neg hName.1, if_neg hName.2, child, if_neg (Nat.not_lt.mpr hShort), hThere]
          exact ih hWalk
        · simp at hLast

/-- What is read is the text of the file to which the path leads. -/
theorem read_eq_ok_iff {text : String} :
    t.read path = .ok text ↔ checkPath path = .ok () ∧
      t.walk (t.origin path) (pathNames path) = .ok (t.placeOf path) ∧
        ∃ content, t.at? (t.placeOf path) = some (.file content) ∧
          Text.Utf8.decode? content = some text := by
  constructor
  · intro h
    obtain ⟨entry, hEntry, hText⟩ := bind_eq_ok_iff.mp h
    obtain ⟨found, hResolve, hEntry⟩ := bind_eq_ok_iff.mp hEntry
    obtain ⟨_, hCheck, hWalk⟩ := bind_eq_ok_iff.mp hResolve
    obtain rfl : found = t.placeOf path := eq_advance_of_walk hWalk
    refine ⟨hCheck, hWalk, ?_⟩
    cases hThere : t.at? (t.placeOf path) with
    | none =>
        rw [hThere] at hEntry
        cases hEntry
    | some there =>
        rw [hThere] at hEntry
        cases hEntry
        cases entry with
        | directory => cases hText
        | file content =>
            refine ⟨content, rfl, ?_⟩
            cases hDecoded : Text.Utf8.decode? content with
            | none => simp [textOf, hDecoded] at hText
            | some decoded => simpa [textOf, hDecoded] using hText
  · rintro ⟨hCheck, hWalk, content, hThere, hText⟩
    have hEntry : t.entry path = .ok (.file content) := by
      refine bind_eq_ok_iff.mpr ⟨t.placeOf path, bind_eq_ok_iff.mpr ⟨(), hCheck, hWalk⟩, ?_⟩
      rw [hThere]
    refine bind_eq_ok_iff.mpr ⟨_, hEntry, ?_⟩
    simp [textOf, hText]

/-! Growth. -/

/-- From the first tree to the second only the files at the given places were written. -/
structure Grows (written : List Place) (t t' : FileTree) : Prop where
  working : t'.working = t.working
  directory : ∀ place, t.at? place = some .directory → t'.at? place = some .directory
  file : ∀ place content, t.at? place = some (.file content) →
    t'.at? place = some (.file content) ∨
      place ∈ written ∧ ∃ content, t'.at? place = some (.file content)
  fresh : ∀ place content, t'.at? place = some (.file content) →
    t.at? place = some (.file content) ∨ place ∈ written

namespace Grows

variable {written more : List Place}

theorem refl (t : FileTree) : Grows written t t where
  working := rfl
  directory _ h := h
  file _ _ h := Or.inl h
  fresh _ _ h := Or.inl h

theorem trans {u : FileTree} (first : Grows written t u) (second : Grows written u t') :
    Grows written t t' where
  working := second.working.trans first.working
  directory place h := second.directory place (first.directory place h)
  file place content h := by
    rcases first.file place content h with hSame | ⟨hWritten, content', hFile⟩
    · exact second.file place content hSame
    · refine Or.inr ⟨hWritten, ?_⟩
      rcases second.file place content' hFile with hSame | ⟨_, hFile⟩
      · exact ⟨content', hSame⟩
      · exact hFile
  fresh place content h := by
    rcases second.fresh place content h with hSame | hWritten
    · exact first.fresh place content hSame
    · exact Or.inr hWritten

/-- To allow for more places that may have been written to does no harm. -/
theorem mono (h : Grows written t t') (hMore : written ⊆ more) : Grows more t t' where
  working := h.working
  directory := h.directory
  file place content hFile := (h.file place content hFile).imp_right (And.imp_left (@hMore place))
  fresh place content hFile := (h.fresh place content hFile).imp_right (@hMore place)

theorem origin_eq (h : Grows written t t') (path : String) : t'.origin path = t.origin path := by
  rw [origin, origin, h.working]

/-- A path leads to one place for good, so places can be compared over a whole run. It
is told by the path and by the working directory. -/
theorem placeOf_eq (h : Grows written t t') (path : String) : t'.placeOf path = t.placeOf path := by
  rw [placeOf, placeOf, h.origin_eq]

/-- A file that is not written to is in the one tree what it is in the other. -/
theorem file_iff (h : Grows written t t') (hPlace : place ∉ written) {content : List UInt8} :
    t'.at? place = some (.file content) ↔ t.at? place = some (.file content) := by
  constructor
  · intro hFile
    exact (h.fresh place content hFile).resolve_right hPlace
  · intro hFile
    exact (h.file place content hFile).resolve_right fun hWritten => hPlace hWritten.1

/-- A walk that arrives still arrives in a tree that has grown, at the same place.
Growing neither removes a directory nor puts a file in its place. -/
theorem walk (hGrows : Grows written t t') (h : t.walk start names = .ok place) :
    t'.walk start names = .ok place := by
  induction names generalizing start with
  | nil => exact h
  | cons name names ih =>
      rcases name_cases name with hIdle | rfl | hName
      · rw [walk_idle hIdle] at h ⊢
        exact ih h
      · rw [walk_up] at h ⊢
        exact ih h
      · rw [walk_name_iff hName] at h ⊢
        obtain ⟨hShort, ⟨hThere, hWalk⟩ | ⟨⟨content, hThere⟩, hLast⟩⟩ := h
        · exact ⟨hShort, Or.inl ⟨hGrows.directory _ hThere, ih hWalk⟩⟩
        · refine ⟨hShort, Or.inr ⟨?_, hLast⟩⟩
          rcases hGrows.file _ content hThere with hSame | ⟨_, hFile⟩
          · exact ⟨content, hSame⟩
          · exact hFile

/-- What is read from a file that is not written to stays. -/
theorem read (h : Grows written t t') (hPlace : t.placeOf path ∉ written) {text : String}
    (hRead : t.read path = .ok text) : t'.read path = .ok text := by
  obtain ⟨hCheck, hWalk, content, hThere, hText⟩ := read_eq_ok_iff.mp hRead
  rw [read_eq_ok_iff, h.placeOf_eq, h.origin_eq]
  exact ⟨hCheck, h.walk hWalk, content, (h.file_iff hPlace).mpr hThere, hText⟩

end Grows

/-- From the first tree to the second only directories came, at some of the given places
and where nothing stood. -/
structure Makes (places : Place → Prop) (t t' : FileTree) : Prop where
  working : t'.working = t.working
  entry : ∀ place, t'.at? place = t.at? place ∨
    places place ∧ t.at? place = none ∧ t'.at? place = some .directory

namespace Makes

variable {places more : Place → Prop}

theorem refl (t : FileTree) : Makes places t t where
  working := rfl
  entry _ := Or.inl rfl

/-- Directories that are made one after the other are all made in the end. -/
theorem trans {u : FileTree} (first : Makes places t u) (second : Makes places u t') :
    Makes places t t' where
  working := second.working.trans first.working
  entry place := by
    rcases first.entry place with hSame | ⟨hPlace, hNone, hMade⟩
    · rw [← hSame]
      exact second.entry place
    · refine Or.inr ⟨hPlace, hNone, ?_⟩
      rcases second.entry place with hKept | ⟨-, hNone', -⟩
      · rw [hKept, hMade]
      · rw [hMade] at hNone'
        cases hNone'

theorem mono (h : Makes places t t') (hMore : ∀ place, places place → more place) :
    Makes more t t' where
  working := h.working
  entry place := (h.entry place).imp_right (And.imp_left (hMore place))

/-- The files are the same in both trees. -/
theorem file_iff (h : Makes places t t') {content : List UInt8} :
    t'.at? place = some (.file content) ↔ t.at? place = some (.file content) := by
  rcases h.entry place with hSame | ⟨-, hNone, hMade⟩
  · rw [hSame]
  · simp [hNone, hMade]

theorem directory (h : Makes places t t') (hThere : t.at? place = some .directory) :
    t'.at? place = some .directory := by
  rcases h.entry place with hSame | ⟨-, -, hMade⟩
  · rw [hSame, hThere]
  · exact hMade

/-- Making directories is growth in which no file is written to. -/
theorem grows (h : Makes places t t') : Grows [] t t' where
  working := h.working
  directory _ hThere := h.directory hThere
  file _ _ hFile := Or.inl (h.file_iff.mpr hFile)
  fresh _ _ hFile := Or.inl (h.file_iff.mp hFile)

theorem placeOf_eq (h : Makes places t t') (path : String) : t'.placeOf path = t.placeOf path :=
  h.grows.placeOf_eq path

end Makes

/-! Entries that are set. -/

/-- What is kept under one place is found whether or not the entries of another are
dropped. -/
theorem lookup_filter {other : Place} (h : other ≠ place) (entries : List (Place × Entry)) :
    (entries.filter fun (p, _) => p != place).lookup other = entries.lookup other := by
  induction entries with
  | nil => rfl
  | cons entry entries ih =>
      rw [List.filter_cons, List.lookup_cons]
      split_ifs with hKept
      · rw [List.lookup_cons, ih]
      · have hSame : entry.1 = place := by simpa using hKept
        rw [ih, hSame, beq_eq_false_iff_ne.mpr h]

/-- An entry that is put at a place is found there, and all the others are found where
they were. -/
theorem at?_set {e : Entry} (hPlace : place ≠ []) (other : Place) :
    (t.set place e).at? other = if other = place then some e else t.at? other := by
  unfold at? set
  by_cases hRoot : other = []
  · simp [hRoot, Ne.symm hPlace]
  · simp only [List.isEmpty_iff, hRoot, if_false, List.lookup_cons]
    split_ifs with hSame
    · simp [hSame]
    · rw [beq_eq_false_iff_ne.mpr hSame]
      exact lookup_filter hSame t.entries

/-- Where nothing stands a directory can come. -/
theorem makes_set_directory {places : Place → Prop} (hPlace : places place)
    (h : t.at? place = none) : Makes places t (t.set place .directory) := by
  have hSome : place ≠ [] := by
    rintro rfl
    cases h
  refine ⟨rfl, fun other => ?_⟩
  rw [at?_set hSome]
  split_ifs with hSame
  · exact Or.inr ⟨hSame ▸ hPlace, hSame ▸ h, rfl⟩
  · exact Or.inl rfl

/-- Where no directory stands a file can be written. -/
theorem grows_set_file {content : List UInt8} (h : t.at? place ≠ some .directory) :
    Grows [place] t (t.set place (.file content)) := by
  have hPlace : place ≠ [] := by
    rintro rfl
    exact h rfl
  refine ⟨rfl, ?_, ?_, ?_⟩
  · intro other hOther
    rw [at?_set hPlace, if_neg]
    · exact hOther
    · rintro rfl
      exact h hOther
  · intro other content' hOther
    rw [at?_set hPlace]
    split_ifs with hSame
    · exact Or.inr ⟨List.mem_singleton.mpr hSame, content, rfl⟩
    · exact Or.inl hOther
  · intro other content' hOther
    rw [at?_set hPlace] at hOther
    split_ifs at hOther with hSame
    · exact Or.inr (List.mem_singleton.mpr hSame)
    · exact Or.inl hOther

/-! Targets. -/

theorem advance_idles (h : ∀ name ∈ names, name = "" ∨ name = ".") (place : Place) :
    advance place names = place := by
  induction names with
  | nil => rfl
  | cons name names ih =>
      rw [advance_idle (h name List.mem_cons_self)]
      exact ih fun other hOther => h other (List.mem_cons_of_mem name hOther)

/-- The target of a path is told by the last of its names that is not empty. -/
theorem target_of_names {front blanks : List String}
    (hNames : pathNames path = front ++ name :: blanks) (hName : name ≠ "")
    (hBlanks : ∀ blank ∈ blanks, blank = "") :
    t.target path = (do
      checkPath path
      let directory ← t.walk (t.origin path) (front ++ [""])
      if name = "." ∨ name = ".." then .ok .there
      else .ok (.named directory name (decide (blanks ≠ [])))) := by
  have hLast : ((pathNames path).reverse.dropWhile (· = "")) = name :: front.reverse := by
    rw [hNames, List.reverse_append, List.reverse_cons, List.append_assoc, List.singleton_append,
      List.dropWhile_append_of_pos (by simpa using hBlanks), List.dropWhile_cons_of_neg]
    simpa using hName
  have hSlashed : ((pathNames path).reverse.head? = some "") ↔ blanks ≠ [] := by
    rw [hNames, List.head?_reverse]
    rcases List.eq_nil_or_concat blanks with rfl | ⟨others, blank, rfl⟩
    · simpa using hName
    · have hLastBlank : (front ++ name :: others.concat blank).getLast? = some blank := by
        rw [List.concat_eq_append, ← List.cons_append, ← List.append_assoc, List.getLast?_concat]
      rw [hLastBlank, hBlanks blank (by simp)]
      simp
  rw [target]
  simp only [hLast, List.reverse_reverse, hSlashed]

/-- The names of a path are all empty, or one is the last that is not. -/
theorem names_blank_or_split (names : List String) :
    (∀ name ∈ names, name = "") ∨
      ∃ front name blanks, names = front ++ name :: blanks ∧ name ≠ "" ∧
        ∀ blank ∈ blanks, blank = "" := by
  induction names with
  | nil => exact Or.inl (by simp)
  | cons first names ih =>
      rcases ih with hBlank | ⟨front, name, blanks, rfl, hRest⟩
      · by_cases hFirst : first = ""
        · exact Or.inl (by simpa [hFirst] using hBlank)
        · exact Or.inr ⟨[], first, names, rfl, hFirst, hBlank⟩
      · exact Or.inr ⟨first :: front, name, blanks, rfl, hRest⟩

/-- A path to a name is that name after a path to its directory, perhaps with slashes
after it. -/
theorem of_target_named {directory : Place} {slashed : Bool}
    (h : t.target path = .ok (.named directory name slashed)) :
    checkPath path = .ok () ∧ IsName name ∧ ∃ front blanks,
      pathNames path = front ++ name :: blanks ∧ (∀ blank ∈ blanks, blank = "") ∧
        (slashed = false → blanks = []) ∧
          t.walk (t.origin path) (front ++ [""]) = .ok directory := by
  rcases names_blank_or_split (pathNames path) with
    hBlank | ⟨front, last, blanks, hNames, hSome, hBlanks⟩
  · have hNone : (pathNames path).reverse.dropWhile (· = "") = [] := by
      rw [List.dropWhile_eq_nil_iff]
      simpa using hBlank
    obtain ⟨_, _, h⟩ := bind_eq_ok_iff.mp h
    simp [hNone] at h
  · rw [target_of_names hNames hSome hBlanks] at h
    obtain ⟨_, hCheck, h⟩ := bind_eq_ok_iff.mp h
    obtain ⟨found, hWalk, h⟩ := bind_eq_ok_iff.mp h
    split_ifs at h with hDots
    · cases h
    · injection h with h
      injection h with hFound hSame hSlashed
      subst hFound hSame hSlashed
      refine ⟨hCheck, ⟨?_, fun hUp => hDots (Or.inr hUp)⟩, front, blanks, hNames, hBlanks, ?_,
        hWalk⟩
      · exact fun hIdle => hIdle.elim hSome fun hDot => hDots (Or.inl hDot)
      · exact fun hUnslashed => by simpa using hUnslashed

/-- A path that aims at a name in a directory leads to the place of that name in it,
whether or not something stands there. -/
theorem placeOf_of_target {directory : Place} {slashed : Bool}
    (h : t.target path = .ok (.named directory name slashed)) :
    t.placeOf path = directory ++ [name] := by
  obtain ⟨-, hName, front, blanks, hNames, hBlanks, -, hWalk⟩ := of_target_named h
  have hDirectory : directory = advance (t.origin path) front := by
    rw [eq_advance_of_walk hWalk, advance_append]
    rfl
  rw [placeOf, hNames, advance_append, advance_name hName, ← hDirectory,
    advance_idles fun blank hBlank => Or.inl (hBlanks blank hBlank)]

/-- A look into a directory succeeds for every name that is not too long, also where
nothing has it. -/
theorem child_eq_ok_iff {directory : Place} {there : Option Entry} :
    t.child directory name = .ok there ↔
      name.utf8ByteSize ≤ maxNameBytes ∧ t.at? (directory ++ [name]) = there := by
  unfold child
  split_ifs with hLong
  · simp [Nat.not_le.mpr hLong]
  · simp [Nat.not_lt.mp hLong]

/-! The operations. -/

/-- A file is written under a short name where no directory stands. The directory that
holds it has to be there already. -/
theorem write_eq_ok_iff {content : List UInt8} :
    t.write path content = .ok t' ↔ ∃ directory name,
      t.target path = .ok (.named directory name false) ∧ name.utf8ByteSize ≤ maxNameBytes ∧
        t.at? (directory ++ [name]) ≠ some .directory ∧
          t' = t.set (directory ++ [name]) (.file content) := by
  constructor
  · intro h
    obtain ⟨target, hTarget, h⟩ := bind_eq_ok_iff.mp h
    cases target with
    | there => cases h
    | named directory name slashed =>
        dsimp only at h
        split_ifs at h with hSlash
        obtain rfl : slashed = false := by simpa using hSlash
        obtain ⟨old, hChild, h⟩ := bind_eq_ok_iff.mp h
        obtain ⟨hShort, rfl⟩ := child_eq_ok_iff.mp hChild
        refine ⟨directory, name, hTarget, hShort, ?_⟩
        split at h
        · cases h
        · next hFree =>
            cases h
            exact ⟨fun hThere => hFree hThere, rfl⟩
  · rintro ⟨directory, name, hTarget, hShort, hFree, rfl⟩
    refine bind_eq_ok_iff.mpr ⟨_, hTarget, ?_⟩
    dsimp only
    rw [if_neg Bool.false_ne_true]
    refine bind_eq_ok_iff.mpr ⟨_, child_eq_ok_iff.mpr ⟨hShort, rfl⟩, ?_⟩
    split
    · next hThere => exact absurd hThere hFree
    · rfl

/-- A directory is made under a short name where nothing stands. -/
theorem makeDirectory_eq_ok_iff :
    t.makeDirectory path = .ok t' ↔ ∃ directory name slashed,
      t.target path = .ok (.named directory name slashed) ∧ name.utf8ByteSize ≤ maxNameBytes ∧
        t.at? (directory ++ [name]) = none ∧ t' = t.set (directory ++ [name]) .directory := by
  constructor
  · intro h
    obtain ⟨target, hTarget, h⟩ := bind_eq_ok_iff.mp h
    cases target with
    | there => cases h
    | named directory name slashed =>
        obtain ⟨old, hChild, h⟩ := bind_eq_ok_iff.mp h
        obtain ⟨hShort, rfl⟩ := child_eq_ok_iff.mp hChild
        refine ⟨directory, name, slashed, hTarget, hShort, ?_⟩
        split at h
        · cases h
        · next hFree =>
            cases h
            exact ⟨hFree, rfl⟩
  · rintro ⟨directory, name, slashed, hTarget, hShort, hFree, rfl⟩
    refine bind_eq_ok_iff.mpr ⟨_, hTarget, ?_⟩
    refine bind_eq_ok_iff.mpr ⟨_, child_eq_ok_iff.mpr ⟨hShort, hFree⟩, rfl⟩

/-- A file that is written is where its path leads, and nothing else was written. -/
theorem of_write {content : List UInt8} (h : t.write path content = .ok t') :
    Grows [t.placeOf path] t t' ∧ checkPath path = .ok () ∧
      t'.walk (t'.origin path) (pathNames path) = .ok (t'.placeOf path) ∧
        t'.at? (t'.placeOf path) = some (.file content) := by
  obtain ⟨directory, name, hTarget, hShort, hFree, rfl⟩ := write_eq_ok_iff.mp h
  obtain ⟨hCheck, hName, front, blanks, hNames, -, hUnslashed, hWalk⟩ := of_target_named hTarget
  obtain rfl := hUnslashed rfl
  have hPlace := placeOf_of_target hTarget
  have hGrows : Grows [t.placeOf path] t (t.set (directory ++ [name]) (.file content)) := by
    rw [hPlace]
    exact grows_set_file hFree
  have hThere : (t.set (directory ++ [name]) (.file content)).at? (directory ++ [name]) =
      some (.file content) := by
    rw [at?_set (by simp), if_pos rfl]
  rw [hGrows.placeOf_eq, hGrows.origin_eq, hPlace, hNames,
    walk_append (hGrows.walk hWalk), walk_name_iff hName]
  exact ⟨hPlace ▸ hGrows, hCheck, ⟨hShort, Or.inr ⟨⟨content, hThere⟩, rfl, rfl⟩⟩, hThere⟩

/-- Making a directory makes one at the place of its path, and nothing else. -/
theorem makes_makeDirectory (h : t.makeDirectory path = .ok t') :
    Makes (· = t.placeOf path) t t' := by
  obtain ⟨directory, name, slashed, hTarget, -, hFree, rfl⟩ := makeDirectory_eq_ok_iff.mp h
  exact makes_set_directory (placeOf_of_target hTarget).symm hFree

/-- Making sure of a directory makes at most the one at the place of its path, whether
or not there is one in the end. -/
theorem makes_ensureDirectory (t : FileTree) (path : String) :
    Makes (· = t.placeOf path) t (t.ensureDirectory path).2 := by
  unfold ensureDirectory
  split
  · exact makes_makeDirectory (by assumption)
  · exact .refl t

/-- The directories that are made are those of the paths. -/
theorem makes_makeChain (t : FileTree) (paths : List String) :
    Makes (fun place => ∃ path ∈ paths, place = t.placeOf path) t (t.makeChain paths).2 := by
  induction paths generalizing t with
  | nil => exact .refl t
  | cons path parents ih =>
      have hFirst (place : Place) (h : place = t.placeOf path) :
          ∃ path' ∈ path :: parents, place = t.placeOf path' :=
        ⟨path, List.mem_cons_self, h⟩
      have hRest (place : Place) (h : ∃ path ∈ parents, place = t.placeOf path) :
          ∃ path' ∈ path :: parents, place = t.placeOf path' := by
        obtain ⟨other, hOther, hPlace⟩ := h
        exact ⟨other, List.mem_cons_of_mem path hOther, hPlace⟩
      rw [makeChain]
      split
      · exact (makes_makeDirectory (by assumption)).mono hFirst
      · have hParents := (ih t).mono hRest
        revert hParents
        rcases t.makeChain parents with ⟨_ | _, made⟩
        · exact id
        · intro hParents
          have hLast := makes_ensureDirectory made path
          rw [hParents.placeOf_eq] at hLast
          exact hParents.trans (hLast.mono hFirst)
      · exact .refl t

end RoughCut.FileTree
