import RoughCut.Proofs.SidecarPaths
import RoughCut.Proofs.StoreEffects

/-!
Trees that many cuts are stored in. What is stored under some keys neither helps nor
hinders storing under another where all ways are shared or were there before. It makes no
file readable that was not, but along a path that leads up again from a directory which
was made for one of the keys.
-/

namespace RoughCut

namespace FileTree

variable {t t' : FileTree} {path key name : String} {start place around : Place}
  {names front : List String} {content : List UInt8}

/-- A tree as a file system has it: what stands anywhere stands in a directory, and the
working directory is there. -/
structure IsWhole (t : FileTree) : Prop where
  around : ∀ place name, t.at? (place ++ [name]) ≠ none → t.at? place = some .directory
  working : t.at? t.working = some .directory

/-- What is around a place where something stands is a directory. -/
theorem IsWhole.initial (h : t.IsWhole) (hThere : t.at? place ≠ none)
    (hInitial : around <+: place) : around = place ∨ t.at? around = some .directory := by
  induction place using List.reverseRecOn with
  | nil => exact Or.inl (List.prefix_nil.mp hInitial)
  | append_singleton place name ih =>
      rcases List.prefix_concat_iff.mp hInitial with rfl | hInitial
      · exact Or.inl rfl
      · have hPlace := h.around place name hThere
        rcases ih (by simp [hPlace]) hInitial with rfl | hAround
        · exact Or.inr hPlace
        · exact Or.inr hAround

/-- In a whole tree all that is around the working directory stands. -/
theorem IsWhole.stands_working (h : t.IsWhole) : t.Stands t.working := by
  intro around hAround
  rcases h.initial (by simp [h.working]) hAround with rfl | hDirectory
  · exact h.working
  · exact hDirectory

/-- It is enough to look at the directories around the entries that there are, so that
this can be computed. -/
theorem isWhole_of_entries
    (hEntries : ∀ entry ∈ t.entries, t.at? entry.1.dropLast = some .directory)
    (hWorking : t.at? t.working = some .directory) : t.IsWhole where
  around place name h := by
    rw [at?, if_neg (by simp), ← Option.isSome_iff_ne_none, List.lookup_isSome_iff] at h
    obtain ⟨entry, hMem, hPlace⟩ := h
    have hDirectory := hEntries entry hMem
    rwa [← eq_of_beq hPlace, List.dropLast_concat] at hDirectory
  working := hWorking

/-- Names lead on within a place, or at last up from it. -/
theorem initial_or_up (h : place <+: start) (names : List String) :
    place <+: advance start names ∨
      ∃ front rest, names = front ++ ".." :: rest ∧ advance start front = place := by
  induction names generalizing start with
  | nil => exact Or.inl h
  | cons name names ih =>
      have hOn {next : Place} (hNext : place <+: next)
          (hAdvance : ∀ names, advance start (name :: names) = advance next names) :
          place <+: advance start (name :: names) ∨ ∃ front rest,
            name :: names = front ++ ".." :: rest ∧ advance start front = place := by
        rcases ih hNext with hWithin | ⟨front, rest, rfl, hUp⟩
        · exact Or.inl (hAdvance names ▸ hWithin)
        · exact Or.inr ⟨name :: front, rest, rfl, by rw [hAdvance, hUp]⟩
      rcases name_cases name with hIdle | rfl | hName
      · exact hOn h (advance_idle hIdle start)
      · by_cases hHere : start = place
        · exact Or.inr ⟨[], names, rfl, hHere⟩
        · obtain ⟨rest, rfl⟩ := h
          have hRest : rest ≠ [] := by
            rintro rfl
            exact hHere (List.append_nil place)
          refine hOn ?_ (advance_up _)
          rw [List.dropLast_append_of_ne_nil hRest]
          exact List.prefix_append place _
      · exact hOn (h.trans (List.prefix_append start [name])) (advance_name hName start)

/-- A walk to a file that was there before could have been made before, unless it leads
up from a directory that has come since. -/
theorem walk_before {written : List Place} (hWhole : t.IsWhole) (hGrows : Grows written t t')
    (hFile : t.at? place = some (.file content))
    (hUp : ∀ front rest, names = front ++ ".." :: rest → t.at? (advance start front) = none →
      t'.at? (advance start front) ≠ some .directory)
    (h : t'.walk start names = .ok place) : t.walk start names = .ok place := by
  induction names generalizing start with
  | nil => exact h
  | cons name names ih =>
      have hRest {next : Place}
          (hNext : ∀ names, advance start (name :: names) = advance next names) :
          ∀ front rest, names = front ++ ".." :: rest → t.at? (advance next front) = none →
            t'.at? (advance next front) ≠ some .directory := by
        rintro front rest rfl
        rw [← hNext]
        exact hUp (name :: front) rest rfl
      rcases name_cases name with hIdle | rfl | hName
      · rw [walk_idle hIdle] at h ⊢
        exact ih (hRest (advance_idle hIdle start)) h
      · rw [walk_up] at h ⊢
        exact ih (hRest (advance_up start)) h
      · rw [walk_name_iff hName] at h ⊢
        obtain ⟨hShort, ⟨hThere, hWalk⟩ | ⟨-, rfl, rfl⟩⟩ := h
        · refine ⟨hShort, Or.inl ⟨?_, ih (hRest (advance_name hName start)) hWalk⟩⟩
          cases hBefore : t.at? (start ++ [name]) with
          | some entry =>
              cases entry with
              | directory => rfl
              | file other =>
                  rcases hGrows.file _ other hBefore with hSame | ⟨-, _, hSame⟩ <;>
                    simp [hThere] at hSame
          | none =>
              -- what is missing cannot be around the file, so the names lead up from it
              exfalso
              have hPlace := eq_advance_of_walk hWalk
              rcases initial_or_up (List.prefix_refl (start ++ [name])) names with
                hWithin | ⟨front, rest, rfl, hFront⟩
              · rw [← hPlace] at hWithin
                rcases hWhole.initial (by simp [hFile]) hWithin with rfl | hAround
                · simp [hFile] at hBefore
                · simp [hAround] at hBefore
              · have hLeft : advance start (name :: front) = start ++ [name] := by
                  rw [advance_name hName, hFront]
                exact hUp (name :: front) rest rfl (hLeft ▸ hBefore) (hLeft ▸ hThere)
        · exact ⟨hShort, Or.inr ⟨⟨content, hFile⟩, rfl, rfl⟩⟩

/-- A path leads up again from a directory that is missing on the way to a key. -/
def Detours (t : FileTree) (path key : String) : Prop :=
  ∃ front rest, pathNames path = front ++ ".." :: rest ∧
    t.at? (advance (t.origin path) front) = none ∧ t.OnWay key (advance (t.origin path) front)

/-- A path that leads up again only from what is there makes no detour, so that this can
be computed. -/
theorem not_detours_of_there (h : ∀ n < (pathNames path).length, (pathNames path)[n]? = some ".." →
    t.at? (advance (t.origin path) ((pathNames path).take n)) ≠ none) : ¬ t.Detours path key := by
  rintro ⟨front, rest, hNames, hNone, -⟩
  refine h front.length (by simp [hNames]) (by simp [hNames]) ?_
  simpa [hNames] using hNone

/-- What is on the way to such a key is a directory, or on the way to all of them. -/
def ShareWays (t : FileTree) (stored : String → Prop) : Prop :=
  ∀ key other, stored key → stored other → ∀ place, t.OnWay key place →
    t.at? place = some .directory ∨ t.OnWay other place

end FileTree

namespace Storage

open FileTree RoughCut.Path

variable {t now now' : FileTree} {stored : String → Prop} {key : String} {place : Place}
  {cut : Cut} {result : Except StorageError Unit} {written : List Place}

/-- What can be at a place after cuts were stored under such keys: what was there, a new
directory on the way to a key, or a file that was written. -/
inductive Change (stored : String → Prop) (t now : FileTree) (place : Place) : Prop where
  | kept (hSame : now.at? place = t.at? place)
  | made {key : String} (hStored : stored key) (hWay : t.OnWay key place)
      (hNone : t.at? place = none) (hDirectory : now.at? place = some .directory)
  | written {key : String} {content : List UInt8} (hStored : stored key)
      (hStorable : Storable t key) (hPlace : place = t.placeOf key)
      (hFile : now.at? place = some (.file content))

/-- The second tree is the first one with cuts stored under such keys. -/
structure Stores (stored : String → Prop) (t now : FileTree) : Prop where
  working : now.working = t.working
  change : ∀ place, Change stored t now place

namespace Stores

theorem refl (t : FileTree) : Stores stored t t where
  working := rfl
  change _ := .kept rfl

theorem origin_eq (h : Stores stored t now) (path : String) : now.origin path = t.origin path := by
  rw [origin, origin, h.working]

theorem onWay_iff (h : Stores stored t now) : now.OnWay key place ↔ t.OnWay key place := by
  unfold OnWay
  rw [h.origin_eq]

theorem placeOf_eq (h : Stores stored t now) (path : String) :
    now.placeOf path = t.placeOf path := by
  rw [placeOf, placeOf, h.origin_eq]

theorem directory (h : Stores stored t now) (hThere : t.at? place = some .directory) :
    now.at? place = some .directory := by
  cases h.change place with
  | kept hSame => rw [hSame, hThere]
  | made _ _ _ hDirectory => exact hDirectory
  | written _ hStorable hPlace _ => exact absurd (hPlace ▸ hThere) hStorable.free

/-- A tree with stored cuts has grown, and was written to at the places of the keys
only. -/
theorem grows (h : Stores stored t now) (hWritten : ∀ key, stored key → t.placeOf key ∈ written) :
    Grows written t now where
  working := h.working
  directory _ := h.directory
  file place content hThere := by
    cases h.change place with
    | kept hSame => exact Or.inl (hSame.trans hThere)
    | made _ _ hNone _ => simp [hNone] at hThere
    | written hStored _ hPlace hFile => exact Or.inr ⟨hPlace ▸ hWritten _ hStored, _, hFile⟩
  fresh place content hFile := by
    cases h.change place with
    | kept hSame => exact Or.inl (hSame.symm.trans hFile)
    | made _ _ _ hDirectory => simp [hDirectory] at hFile
    | written hStored _ hPlace _ => exact Or.inr (hPlace ▸ hWritten _ hStored)

theorem stands_working (h : Stores stored t now) (hStands : t.Stands t.working) :
    now.Stands now.working := by
  rw [h.working]
  exact fun around hAround => h.directory (hStands around hAround)

/-- What has been stored changes nothing in what can be stored. -/
theorem storable_iff (h : Stores stored t now) (hWays : t.ShareWays stored) (hKey : stored key) :
    Storable now key ↔ Storable t key := by
  constructor
  · intro hNow
    refine ⟨hNow.notBlank, hNow.isPath, hNow.named, hNow.short, fun place content hWay hFile => ?_,
      fun hDirectory => ?_, fun hWay => ?_⟩
    · have hThere : ∃ content, now.at? place = some (.file content) := by
        cases h.change place with
        | kept hSame => exact ⟨content, hSame.trans hFile⟩
        | made _ _ hNone _ => simp [hNone] at hFile
        | written _ _ _ hFile => exact ⟨_, hFile⟩
      obtain ⟨other, hThere⟩ := hThere
      exact hNow.noFile place other (h.onWay_iff.mpr hWay) hThere
    · refine hNow.free ?_
      rw [h.placeOf_eq]
      exact h.directory hDirectory
    · refine hNow.apart ?_
      rwa [h.onWay_iff, h.placeOf_eq]
  · intro hBefore
    refine ⟨hBefore.notBlank, hBefore.isPath, hBefore.named, hBefore.short,
      fun place content hWay hFile => ?_, fun hDirectory => ?_, fun hWay => ?_⟩
    · rw [h.onWay_iff] at hWay
      cases h.change place with
      | kept hSame => exact hBefore.noFile place content hWay (hSame.symm.trans hFile)
      | made _ _ _ hDirectory => simp [hDirectory] at hFile
      | @written other _ hStored hStorable hPlace _ =>
          rcases hWays key other hKey hStored place hWay with hDirectory | hOther
          · exact hStorable.free (hPlace ▸ hDirectory)
          · exact hStorable.apart (hPlace ▸ hOther)
    · rw [h.placeOf_eq] at hDirectory
      cases h.change (t.placeOf key) with
      | kept hSame => exact hBefore.free (hSame.symm.trans hDirectory)
      | @made other hStored hWay hNone _ =>
          rcases hWays other key hStored hKey _ hWay with hThere | hOwn
          · simp [hNone] at hThere
          · exact hBefore.apart hOwn
      | written _ _ _ hFile => simp [hDirectory] at hFile
    · rw [h.onWay_iff, h.placeOf_eq] at hWay
      exact hBefore.apart hWay

/-- What is at a place stays a change when another cut goes elsewhere. -/
theorem change_of_kept (h : Stores stored t now) (hKey : stored key)
    (hKept : Kept now key now' place) : Change stored t now' place := by
  rcases hKept with hSame | ⟨hWay, hNone, hDirectory⟩
  · cases h.change place with
    | kept hBefore => exact .kept (hSame.trans hBefore)
    | made hStored hWay hNone hDirectory =>
        exact .made hStored hWay hNone (hSame.trans hDirectory)
    | written hStored hStorable hPlace hFile =>
        exact .written hStored hStorable hPlace (hSame.trans hFile)
  · cases h.change place with
    | kept hBefore => exact .made hKey (h.onWay_iff.mp hWay) (hBefore.symm.trans hNone) hDirectory
    | made _ _ _ hThere => simp [hNone] at hThere
    | written _ _ _ hFile => simp [hNone] at hFile

/-- One more cut that is stored under such a key, or is not, leaves a tree with cuts
stored under such keys. -/
theorem store (h : Stores stored t now) (hStands : t.Stands t.working)
    (hWays : t.ShareWays stored) (hKey : stored key)
    (hStore : Storage.store now key cut = (result, now')) : Stores stored t now' := by
  cases result with
  | error e =>
      have hMakes := of_store_error hStore
      exact ⟨hMakes.working.trans h.working,
        fun place => h.change_of_kept hKey (hMakes.entry place)⟩
  | ok _ =>
      obtain ⟨hWorking, -, hFile, hKept⟩ := of_store_ok hStore
      refine ⟨hWorking.trans h.working, fun place => ?_⟩
      by_cases hPlace : place = now.placeOf key
      · subst hPlace
        have hStorable := storable_of_store (h.stands_working hStands) hStore
        exact .written hKey ((h.storable_iff hWays hKey).mp hStorable) (h.placeOf_eq key) hFile
      · exact h.change_of_kept hKey (hKept place hPlace)

variable {path : String}

/-- What has been stored elsewhere changes nothing in what can be read, along a path that
makes no detour. -/
theorem read_iff (h : Stores stored t now) (hWhole : t.IsWhole)
    (hWritten : ∀ key, stored key → t.placeOf key ∈ written)
    (hStraight : ∀ key, stored key → ¬ t.Detours path key) {text : String}
    (hFree : t.read path = .ok text ∨ now.read path = .ok text → t.placeOf path ∉ written) :
    now.read path = .ok text ↔ t.read path = .ok text := by
  have hGrows := h.grows hWritten
  refine ⟨fun hNow => ?_, fun hBefore => hGrows.read (hFree (Or.inl hBefore)) hBefore⟩
  obtain ⟨hCheck, hWalk, content, hThere, hText⟩ := read_eq_ok_iff.mp hNow
  rw [h.placeOf_eq] at hThere
  rw [h.placeOf_eq, h.origin_eq] at hWalk
  have hFile := (hGrows.file_iff (hFree (Or.inr hNow))).mp hThere
  refine read_eq_ok_iff.mpr
    ⟨hCheck, walk_before hWhole hGrows hFile ?_ hWalk, content, hFile, hText⟩
  intro front rest hNames hNone hDirectory
  cases h.change (advance (t.origin path) front) with
  | kept hSame =>
      rw [hSame, hNone] at hDirectory
      cases hDirectory
  | @made key hStored hWay _ _ => exact hStraight key hStored ⟨front, rest, hNames, hNone, hWay⟩
  | written _ _ _ hFile =>
      rw [hFile] at hDirectory
      cases hDirectory

/-- What can be loaded before cuts were stored can be loaded afterwards, and nothing
else can be. The path must not lead to one of the cuts, or over a directory that storing
made. -/
theorem load_iff (h : Stores stored t now) (hWhole : t.IsWhole)
    (hWritten : ∀ key, stored key → t.placeOf key ∈ written)
    (hStraight : ∀ key, stored key → ¬ t.Detours path key)
    (hFree : ∀ text, t.read path = .ok text ∨ now.read path = .ok text →
      t.placeOf path ∉ written) {transcript : Transcript} :
    load now path = .ok transcript ↔ load t path = .ok transcript := by
  rw [load_eq_ok_iff, load_eq_ok_iff]
  refine and_congr_right fun _ => exists_congr fun text => and_congr_left fun _ => ?_
  exact h.read_iff hWhole hWritten hStraight (hFree text)

end Stores

/-! The ways to sidecars. -/

/-- The stem of a path is a single name, so it can have no slash. -/
theorem slash_not_mem_stem (path : String) :
    '/' ∉ ((stem? path).getD "transcript").toList := by
  cases hSplit : splitName path with
  | none =>
      rw [stem?, hSplit]
      decide
  | some parts =>
      obtain ⟨hTrimmed, -⟩ := splitName_eq_some_iff.mp hSplit
      have hInitial : parts.1 ++ [parts.2] <+: pieces path := hTrimmed ▸ trimIdle_initial _
      rw [stem?, hSplit, Option.map_some, Option.getD_some, String.toList_ofList]
      exact fun hMem =>
        slash_not_mem_of_initial hInitial parts.2 (by simp) (mem_of_mem_nameStem hMem)

/-- The ways to the names in a directory are the same. -/
theorem onWay_join {directory name other : String} (hName : '/' ∉ name.toList)
    (hOther : '/' ∉ other.toList) (h : t.OnWay (join directory name) place) :
    t.OnWay (join directory other) place := by
  obtain ⟨front, -, hNames⟩ := exists_pathNames_join directory
  have hOrigin : t.origin (join directory other) = t.origin (join directory name) := by
    refine origin_congr ?_ t
    by_cases hEmpty : directory = ""
    · subst hEmpty
      have hRelative (name : String) (h : '/' ∉ name.toList) : isAbsolute name = false := by
        rw [isAbsolute, beq_eq_false_iff_ne]
        exact fun hHead => h (List.mem_of_head? hHead)
      exact (hRelative other hOther).trans (hRelative name hName).symm
    · rw [isAbsolute_join hEmpty, isAbsolute_join hEmpty]
  rw [onWay_iff_of_names (hNames name hName)] at h
  rwa [onWay_iff_of_names (hNames other hOther), hOrigin]

/-- All ways to the sidecar beside a file that can be read are there. -/
theorem directory_of_onWay_beside {path text : String}
    (hStands : t.Stands t.working) (hRead : t.read path = .ok text)
    (h : t.OnWay (sidecarPath path none) place) : t.at? place = some .directory := by
  obtain ⟨-, hWalk, content, hThere, -⟩ := read_eq_ok_iff.mp hRead
  obtain ⟨front, name, hNames, hName⟩ := exists_pathNames_eq hStands hWalk hThere
  obtain ⟨before, piece, hPieces, hPiece, rfl, rfl⟩ := exists_pieces_of_name hName hNames
  have hTrimmed : trimIdle (pieces path) = before ++ [piece] := by
    rw [hPieces, trimIdle_concat hPiece]
  have hSplit : splitName path = some (before, piece) :=
    splitName_eq_some_iff.mpr ⟨hTrimmed, hPiece⟩
  have hLast : name? path = some (String.ofList piece) := by
    rw [name?, hSplit]
    rfl
  obtain ⟨parent, stem, hParent, hStem, -, -, hSlash⟩ := exists_parent_stem hLast
  obtain ⟨initial, hInitial, hJoin⟩ := exists_pathNames_join parent
  rw [sidecarPath_eq_join hLast hParent hStem, Option.getD_none,
    onWay_iff_of_names (hJoin _ (slash_not_mem_sidecar hSlash))] at h
  obtain ⟨names, hInside, rfl⟩ := h
  rcases parent_cases hTrimmed hParent with
    ⟨hTop, -⟩ | ⟨_, _, above, -, -, hFront, hRoot, hAbove⟩
  · -- the sidecar lies where its path begins
    have hIdle := idle_ofList (idle_of_top hTop)
    rw [advance_idles fun name hMem => hIdle name (List.mem_append_left _
      ((hInside.trans (hInitial.map String.ofList)).subset hMem))]
    exact stands_origin hStands _ _ List.prefix_rfl
  · have hSome : parent ≠ "" := by
      rintro rfl
      cases hAbove
    have hOrigin : t.origin (join parent (stem ++ ".segments.json")) = t.origin path :=
      origin_congr ((isAbsolute_join hSome _).trans hRoot) t
    rw [hNames] at hWalk
    rw [hOrigin]
    refine directory_of_onWay (stands_origin hStands path) hNames
      (walk_of_append hWalk (List.cons_ne_nil _ _)) ?_
    refine (onWay_iff_of_names hNames).mpr ⟨names, hInside.trans ?_, rfl⟩
    exact (hInitial.trans (hFront ▸ trimIdle_initial before)).map String.ofList

/-- The ways to the sidecars of files that can be read are all there, or shared. -/
theorem shareWays_sidecars (hStands : t.Stands t.working)
    (directory : Option String) :
    t.ShareWays fun key => ∃ path text, t.read path = .ok text ∧
      key = sidecarPath path directory := by
  rintro _ _ ⟨path, text, hRead, rfl⟩ ⟨other, -, -, rfl⟩ place hWay
  cases directory with
  | none => exact Or.inl (directory_of_onWay_beside hStands hRead hWay)
  | some directory =>
      exact Or.inr (onWay_join (slash_not_mem_sidecar (slash_not_mem_stem path))
        (slash_not_mem_sidecar (slash_not_mem_stem other)) hWay)

end Storage

end RoughCut
