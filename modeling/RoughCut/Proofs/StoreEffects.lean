import RoughCut.Proofs.JobRequests
import RoughCut.Proofs.SidecarBatches

/-!
What storing a cut does to a file tree. Either the file under the key has the text of
the cut, and nothing else has come but directories on the way to it, or no file has
changed at all. It is known beforehand which of the two it will be.
-/

namespace RoughCut

namespace FileTree

variable {t t' : FileTree} {path name : String} {start place : Place} {names front : List String}

/-- The same files are in both trees, with the same contents. -/
def SameFiles (t t' : FileTree) : Prop :=
  ∀ place content, t'.at? place = some (.file content) ↔ t.at? place = some (.file content)

/-- Making directories leaves the files as they are, and makes no file. -/
theorem Makes.sameFiles {places : Place → Prop} (h : Makes places t t') : SameFiles t t' :=
  fun _ _ => h.file_iff

theorem Makes.onWay_iff {places : Place → Prop} (h : Makes places t t') :
    t'.OnWay path place ↔ t.OnWay path place := by
  unfold OnWay
  rw [h.grows.origin_eq]

/-! What a walk has passed. -/

/-- A walk that arrives has come by no name that is too long, for such a name cannot
even be looked up. -/
theorem short_of_walk (h : t.walk start names = .ok place) :
    ∀ name ∈ names, name.utf8ByteSize ≤ maxNameBytes := by
  induction names generalizing start with
  | nil => simp
  | cons name names ih =>
      suffices hAll : name.utf8ByteSize ≤ maxNameBytes ∧
          ∀ other ∈ names, other.utf8ByteSize ≤ maxNameBytes by
        simpa using hAll
      rcases name_cases name with hIdle | rfl | hName
      · rw [walk_idle hIdle] at h
        refine ⟨?_, ih h⟩
        rcases hIdle with rfl | rfl <;> decide
      · rw [walk_up] at h
        exact ⟨by decide, ih h⟩
      · obtain ⟨hShort, ⟨_, hWalk⟩ | ⟨_, rfl, _⟩⟩ := (walk_name_iff hName).mp h
        · exact ⟨hShort, ih hWalk⟩
        · exact ⟨hShort, by simp⟩

/-- Where a walk goes on it has come to a directory. -/
theorem walk_of_append {rest : List String} (h : t.walk start (front ++ rest) = .ok place)
    (hRest : rest ≠ []) : t.walk start (front ++ [""]) = .ok (advance start front) := by
  induction front generalizing start with
  | nil => rfl
  | cons name front ih =>
      rw [List.cons_append] at h ⊢
      rcases name_cases name with hIdle | rfl | hName
      · rw [walk_idle hIdle] at h ⊢
        rw [advance_idle hIdle]
        exact ih h
      · rw [walk_up] at h ⊢
        rw [advance_up]
        exact ih h
      · obtain ⟨hShort, ⟨hThere, hWalk⟩ | ⟨_, hLast, _⟩⟩ := (walk_name_iff hName).mp h
        · rw [walk_name_iff hName, advance_name hName]
          exact ⟨hShort, Or.inl ⟨hThere, ih hWalk⟩⟩
        · exact absurd (List.append_eq_nil_iff.mp hLast).2 hRest

/-- What is on the way along a path that leads into a directory is a directory. So
nothing is left to be made there. -/
theorem directory_of_onWay (hStands : t.Stands (t.origin path))
    (hNames : pathNames path = front ++ [name])
    (hWalk : t.walk (t.origin path) (front ++ [""]) = .ok start) (h : t.OnWay path place) :
    t.at? place = some .directory := by
  obtain ⟨before, ⟨rest, rfl⟩, rfl⟩ := (onWay_iff_of_names hNames).mp h
  rw [List.append_assoc] at hWalk
  have hBefore := walk_of_append hWalk (by simp)
  exact stands_of_walk hStands hBefore (by simp [IsName]) _ List.prefix_rfl

end FileTree

namespace Storage

open FileTree Json

variable {t t' made : FileTree} {key : String} {cut : Cut} {result : Except StorageError Unit}

/-- What it takes to store a cut under a key. -/
structure Storable (t : FileTree) (key : String) : Prop where
  notBlank : Text.trim key ≠ ""
  isPath : checkPath key = .ok ()
  named : ∃ name ∈ (pathNames key).getLast?, IsName name
  short : ∀ name ∈ pathNames key, name.utf8ByteSize ≤ maxNameBytes
  /-- no file is on the way -/
  noFile : ∀ place content, t.OnWay key place → t.at? place ≠ some (.file content)
  /-- no directory is where the cut goes, and none has to come there -/
  free : t.at? (t.placeOf key) ≠ some .directory
  apart : ¬ t.OnWay key (t.placeOf key)

/-- A key is accepted unless it is blank. Whether there can be a file of that name is
found out only when it is written. -/
theorem checkKey_eq_ok_iff : checkKey key = .ok () ↔ Text.trim key ≠ "" := by
  unfold checkKey
  split_ifs with hBlank
  · simpa using hBlank
  · simpa using hBlank

/-- A cut that has been stored could be stored. -/
theorem storable_of_store (hStands : t.Stands t.working) (h : store t key cut = (.ok (), t')) :
    Storable t key := by
  obtain ⟨⟨_, hNone⟩, -⟩ | ⟨-, hKey, made, -, hMakes, hWrite⟩ := store_cases h
  · cases hNone
  · obtain ⟨directory, name, hTarget, hShort, hFree, -⟩ := write_eq_ok_iff.mp hWrite
    obtain ⟨hCheck, hName, front, blanks, hNames, -, hUnslashed, hWalk⟩ := of_target_named hTarget
    obtain rfl := hUnslashed rfl
    have hOrigin : made.origin key = t.origin key := hMakes.grows.origin_eq key
    -- the file was written, so that the whole way to it is there afterwards
    have hDirectory (place : Place) (hPlace : t.OnWay key place) :
        made.at? place = some .directory := by
      refine directory_of_onWay ?_ hNames hWalk (hMakes.onWay_iff.mpr hPlace)
      exact hOrigin ▸ (stands_origin hStands key).makes hMakes
    have hPlace : t.placeOf key = directory ++ [name] := by
      rw [← hMakes.placeOf_eq, placeOf_of_target hTarget]
    refine ⟨checkKey_eq_ok_iff.mp hKey, hCheck, ⟨name, by simp [hNames], hName⟩, ?_, ?_, ?_, ?_⟩
    · intro other hOther
      rw [hNames, List.mem_append, List.mem_singleton] at hOther
      rcases hOther with hOther | rfl
      · exact short_of_walk hWalk other (List.mem_append_left _ hOther)
      · exact hShort
    · intro place content hOnWay hFile
      rw [← hMakes.file_iff, hDirectory place hOnWay] at hFile
      cases hFile
    · rw [hPlace]
      exact fun hThere => hFree (hMakes.directory hThere)
    · rw [hPlace]
      exact fun hOnWay => hFree (hDirectory _ hOnWay)

/-- The directory that a key lies in can be made where no file is on the way to it. -/
theorem prepare_of_clear {front : List String} {name : String} (hStands : t.Stands t.working)
    (hCheck : checkPath key = .ok ()) (hName : IsName name)
    (hNames : pathNames key = front ++ [name]) (hClear : t.Clear (t.origin key) front) :
    ∃ made place, prepare t key = (.ok (), made) ∧
      made.walk (t.origin key) (front ++ [""]) = .ok place := by
  obtain ⟨before, piece, hPieces, hPiece, rfl, rfl⟩ := exists_pieces_of_name hName hNames
  have hTrimmed : Path.trimIdle (Path.pieces key) = before ++ [piece] := by
    rw [hPieces, Path.trimIdle_concat hPiece]
  obtain ⟨parent, hParent, -⟩ :=
    Path.exists_parent_of_splitName (Path.splitName_eq_some_iff.mpr ⟨hTrimmed, hPiece⟩)
  obtain ⟨made, place, hChain, hWalk⟩ := makeChain_of_clear hTrimmed hParent
    (Or.inr (Nat.le_refl _)) hCheck (stands_origin hStands key) hClear
  refine ⟨made, place, ?_, hWalk⟩
  unfold prepare directoryFor
  rw [hParent, Option.filter_some]
  -- a key of one name has the empty parent, for which nothing is made
  by_cases hEmpty : parent = ""
  · subst hEmpty
    rw [Path.ancestorsWithin_of_top (by decide), makeChain] at hChain
    cases hChain
    rfl
  · rw [if_pos (by simpa using hEmpty)]
    simp only [makeDirectories, Path.ancestors, hChain]
    rfl

/-- Storing succeeds where it can. -/
theorem store_of_storable (hStands : t.Stands t.working) (h : Storable t key) (cut : Cut) :
    (store t key cut).1 = .ok () := by
  obtain ⟨name, hLast, hName⟩ := h.named
  obtain ⟨front, hNames⟩ := List.getLast?_eq_some_iff.mp hLast
  have hClear : t.Clear (t.origin key) front := by
    refine ⟨fun other hOther => h.short other (by simp [hNames, hOther]), ?_⟩
    rintro before ⟨rest, rfl⟩ content
    exact h.noFile _ content ((onWay_iff_of_names hNames).mpr ⟨before, ⟨rest, rfl⟩, rfl⟩)
  obtain ⟨made, directory, hPrepare, hWalk⟩ :=
    prepare_of_clear hStands h.isPath hName hNames hClear
  have hMakes := makes_prepare t key
  rw [hPrepare] at hMakes
  have hTarget : made.target key = .ok (.named directory name false) := by
    have hSome : name ≠ "" := fun hEmpty => hName.1 (Or.inl hEmpty)
    have hDots : ¬ (name = "." ∨ name = "..") :=
      fun hDots => hDots.elim (fun hDot => hName.1 (Or.inr hDot)) hName.2
    rw [target_of_names hNames hSome (by simp), h.isPath, hMakes.grows.origin_eq, hWalk]
    simp [hDots, bind, Except.bind]
  have hFree : made.at? (directory ++ [name]) ≠ some .directory := by
    rw [← placeOf_of_target hTarget, hMakes.placeOf_eq]
    rcases hMakes.entry (t.placeOf key) with hSame | ⟨hOnWay, -⟩
    · rw [hSame]
      exact h.free
    · exact absurd hOnWay h.apart
  have hWrite := @write_eq_ok_iff made _ key (Text.Utf8.encode cut.prettyJson) |>.mpr
    ⟨directory, name, hTarget, h.short name (by simp [hNames]), hFree, rfl⟩
  rw [store, checkKey_eq_ok_iff.mpr h.notBlank]
  simp only [hPrepare, hWrite]

/-- Storing a cut succeeds exactly where the tree allows for it. That can be told before
anything is done, since what storing does on the way cannot get in its own way. -/
theorem eq_ok_iff_of_store {result : Except StorageError Unit} (hStands : t.Stands t.working)
    (h : store t key cut = (result, t')) : result = .ok () ↔ Storable t key := by
  constructor
  · rintro rfl
    exact storable_of_store hStands h
  · intro hStorable
    have hOk := store_of_storable hStands hStorable cut
    rwa [h] at hOk

/-- What is at a place after a cut was stored under a key, or could not be: what was
there, or a new directory on the way. -/
def Kept (t : FileTree) (key : String) (t' : FileTree) (place : Place) : Prop :=
  t'.at? place = t.at? place ∨
    t.OnWay key place ∧ t.at? place = none ∧ t'.at? place = some .directory

/-- A cut that is stored is in the file to which its key leads. -/
theorem of_store_ok (h : store t key cut = (.ok (), t')) :
    t'.working = t.working ∧ t'.resolve key = .ok (t.placeOf key) ∧
      t'.at? (t.placeOf key) = some (.file (Text.Utf8.encode cut.prettyJson)) ∧
      ∀ place, place ≠ t.placeOf key → Kept t key t' place := by
  obtain ⟨⟨_, hNone⟩, -⟩ | ⟨-, -, made, -, hMakes, hWrite⟩ := store_cases h
  · cases hNone
  · obtain ⟨hGrows, hCheck, hWalk, hFile⟩ := of_write hWrite
    have hPlace : t'.placeOf key = t.placeOf key := by
      rw [hGrows.placeOf_eq, hMakes.placeOf_eq]
    rw [hPlace] at hWalk hFile
    refine ⟨hGrows.working.trans hMakes.working, bind_eq_ok_iff.mpr ⟨(), hCheck, hWalk⟩, hFile,
      fun place hOther => ?_⟩
    obtain ⟨directory, name, hTarget, -, -, rfl⟩ := write_eq_ok_iff.mp hWrite
    rw [← hMakes.placeOf_eq, placeOf_of_target hTarget] at hOther
    unfold Kept
    rw [at?_set (by simp), if_neg hOther]
    exact hMakes.entry place

/-- A cut that could not be stored may leave directories on the way to its key, made
before it failed. No file is touched. -/
theorem of_store_error {e : StorageError} (h : store t key cut = (.error e, t')) :
    Makes (t.OnWay key) t t' := by
  obtain ⟨-, hMakes⟩ | ⟨hNone, -⟩ := store_cases h
  · exact hMakes
  · cases hNone

/-- Work that ends in a failure has made no more than directories. Writing comes last,
and it either writes all of the text or nothing. -/
theorem makes_of_process_error {reply : String → Probe.Reply} {job : Job} {disk disk' : Disk}
    {e : StorageError} (h : (job.process (Disk.host reply)).run disk = (.error e, disk')) :
    Makes (disk.tree.OnWay job.output) disk.tree disk'.tree := by
  generalize hTree : disk'.tree = tree
  have hWorked := Disk.worked_of_process h
  rw [hTree] at hWorked
  cases hWorked with
  | unloaded _ => exact .refl _
  | refused _ hStore => exact of_store_error hStore

/-- A cut is stored whole or not at all. Where it is stored the file under the key has its
text, and where it is not no file has changed or come; in both cases nothing else has
come but directories that were missing on the way to the key. A key that is blank, a
file on the way and a directory in the place of the file are among what prevents it.
Work on a job that ends in a failure changes no file either. -/
theorem store_whole_or_not :
    (∀ t key cut result t', store t key cut = (result, t') →
      t'.working = t.working ∧
      (result = .ok () →
        t'.resolve key = .ok (t.placeOf key) ∧
        t'.at? (t.placeOf key) = some (.file (Text.Utf8.encode cut.prettyJson)) ∧
        ∀ place, place ≠ t.placeOf key → Kept t key t' place) ∧
      (∀ e, result = .error e → SameFiles t t' ∧ ∀ place, Kept t key t' place) ∧
      (t.Stands t.working → (result = .ok () ↔ Storable t key))) ∧
    ∀ (reply : String → Probe.Reply) (job : Job) disk e disk',
      (job.process (Disk.host reply)).run disk = (.error e, disk') →
        SameFiles disk.tree disk'.tree := by
  refine ⟨fun t key cut result t' h => ⟨?_, ?_, ?_, ?_⟩, ?_⟩
  · cases result with
    | ok _ => exact (of_store_ok h).1
    | error e => exact (of_store_error h).working
  · rintro rfl
    exact (of_store_ok h).2
  · rintro e rfl
    have hMakes := of_store_error h
    exact ⟨hMakes.sameFiles, hMakes.entry⟩
  · exact fun hStands => eq_ok_iff_of_store hStands h
  · intro reply job disk e disk' h
    exact (makes_of_process_error h).sameFiles

/-- A cut is stored two new directories away, and none can be stored under a file. -/
theorem store_whole_or_not_around :
    let takes : FileTree :=
      ⟨[(["takes"], .directory), (["takes", "day1.json"], .file [])], ["takes"]⟩
    let cut := Cut.ofTokens [] Seconds.zero
    (∃ takes', store takes "../cuts/./new//day1.segments.json" cut = (.ok (), takes') ∧
      takes'.at? ["cuts", "new", "day1.segments.json"] =
        some (.file (Text.Utf8.encode cut.prettyJson)) ∧
      takes'.at? ["takes", "day1.json"] = some (.file [])) ∧
    ∃ e takes', store takes "day1.json/new/cut" cut = (.error e, takes') ∧
      SameFiles takes takes' := by
  intro takes cut
  constructor
  · cases h : store takes "../cuts/./new//day1.segments.json" cut with
    | mk result takes' =>
        have hOk : (store takes "../cuts/./new//day1.segments.json" cut).1.isOk = true := by
          decide
        have hPlace : takes.placeOf "../cuts/./new//day1.segments.json" =
            ["cuts", "new", "day1.segments.json"] := by
          decide
        rw [h] at hOk
        cases result with
        | error e => cases hOk
        | ok _ =>
            obtain ⟨-, hStored, -⟩ := store_whole_or_not.1 _ _ _ _ _ h
            obtain ⟨-, hFile, hKept⟩ := hStored rfl
            rw [hPlace] at hFile hKept
            refine ⟨takes', rfl, hFile, ?_⟩
            rcases hKept ["takes", "day1.json"] (by decide) with hSame | ⟨-, hNone, -⟩
            · exact hSame
            · cases hNone
  · cases h : store takes "day1.json/new/cut" cut with
    | mk result takes' =>
        obtain ⟨-, -, hLeft, hStorable⟩ := store_whole_or_not.1 _ _ _ _ _ h
        have hStands : takes.Stands takes.working := by
          have hRoot : takes.Stands [] := fun around hAround => by
            rw [List.prefix_nil.mp hAround]
            rfl
          exact hRoot.concat (by decide)
        have hOnWay : takes.OnWay "day1.json/new/cut" ["takes", "day1.json"] :=
          ⟨["day1.json"], ["new", "cut"], by decide, by simp, by decide⟩
        cases result with
        | ok _ => exact absurd rfl (((hStorable hStands).mp rfl).noFile _ [] hOnWay)
        | error e => exact ⟨e, takes', rfl, (hLeft e rfl).1⟩

end Storage

end RoughCut
