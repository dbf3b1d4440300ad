import RoughCut.Proofs.CutsAsTranscripts
import RoughCut.Proofs.JobRequests
import RoughCut.Proofs.OutputTimes

/-!
Runs over what earlier runs have left. The sidecars of earlier runs are transcripts to
the tool like any others, in which nothing is said. So none of them fails to be loaded,
not even while other work of the same run writes it over, and each of them gets a
sidecar of its own without a segment.
-/

namespace RoughCut

open Json

/-- The cut of footage in which nothing is said. -/
def Cut.silent : Cut := ⟨[], Report.empty⟩

/-- A transcript as a machine can have it: its times are finite, and a machine word
counts its tokens. -/
structure Transcript.Loadable (t : Transcript) : Prop where
  finite : t.HasFiniteTimes
  count : t.tokens.length < 2 ^ 64

namespace Transcript.Loadable

variable {t : Transcript}

end Transcript.Loadable

/-! Trees with stored cuts. -/

namespace FileTree

variable {tree tree' : FileTree} {path : String}

/-- At the path is the text of a stored cut, and the path can be a key. -/
def HoldsCut (tree : FileTree) (path : String) : Prop :=
  Storage.checkKey path = .ok () ∧ ∃ c : Cut, c.Storable ∧ tree.read path = .ok c.prettyJson

/-- A machine word counts the tokens of each transcript in the tree. -/
def Countable (tree : FileTree) : Prop :=
  ∀ place t, tree.Holds place t → t.tokens.length < 2 ^ 64

end FileTree

namespace Storage

variable {tree tree' : FileTree} {key path : String} {t : Transcript} {cut : Cut}
  {result : Except StorageError Unit}

/-- A text that can be read stays where it is, unless the file has the place of the key:
then it may be the text of the cut from now on. -/
theorem read_after_store {text : String} (h : store tree key cut = (result, tree'))
    (hRead : tree.read path = .ok text) :
    tree'.read path = .ok text ∨
      tree.placeOf path = tree.placeOf key ∧ tree'.read path = .ok cut.prettyJson := by
  obtain ⟨hGrows, -⟩ := of_store h
  obtain ⟨hCheck, hWalk, content, hThere, hText⟩ := FileTree.read_eq_ok_iff.mp hRead
  have hPath {found : List UInt8} {other : String} (hFile : tree'.at? (tree.placeOf path) =
      some (.file found)) (hFound : Text.Utf8.decode? found = some other) :
      tree'.read path = .ok other := by
    rw [FileTree.read_eq_ok_iff, hGrows.placeOf_eq, hGrows.origin_eq]
    exact ⟨hCheck, hGrows.walk hWalk, found, hFile, hFound⟩
  rcases hGrows.file _ content hThere with hSame | ⟨hPlace, found, hFile⟩
  · exact Or.inl (hPath hSame hText)
  · rcases content_of_store h hFile with hBefore | rfl
    · rw [hThere] at hBefore
      cases hBefore
      exact Or.inl (hPath hFile hText)
    · exact Or.inr ⟨List.mem_singleton.mp hPlace, hPath hFile (Text.Utf8.decode?_encode _)⟩

/-- A file that is written over by a cut holds a stored cut. -/
theorem holdsCut_of_store (hCut : cut.Storable) (h : store tree key cut = (result, tree'))
    (hHere : tree.HoldsCut path) : tree'.HoldsCut path := by
  obtain ⟨hKey, c, hStored, hRead⟩ := hHere
  refine ⟨hKey, ?_⟩
  rcases read_after_store h hRead with hSame | ⟨-, hNew⟩
  · exact ⟨c, hStored, hSame⟩
  · exact ⟨cut, hCut, hNew⟩

/-- What is stored is no long transcript. -/
theorem countable_of_store (hCut : cut.Storable) (h : store tree key cut = (result, tree'))
    (hTree : tree.Countable) : tree'.Countable := by
  rintro place t ⟨content, text, hFile, hText, hJson⟩
  rcases content_of_store h hFile with hBefore | rfl
  · exact hTree place t ⟨content, text, hBefore, hText, hJson⟩
  · rw [Text.Utf8.decode?_encode] at hText
    cases hText
    rw [hCut.ofJson_texts.2] at hJson
    cases hJson
    decide

end Storage

namespace Sidecar

variable {reply : String → Probe.Reply} {start now now' : FileTree} {job : Job}
  {jobs : List Job} {p p' : Progress StorageError} {disk disk' : Disk} {written : List Place}

/-- At some time of a run from the first tree on, which writes to these places, the cut
of silence could not be stored under that key, for this reason. -/
def NotStored (start : FileTree) (written : List Place) (key : String) (e : StorageError) :
    Prop :=
  ∃ tree, start.Grows written tree ∧ (Storage.store tree key Cut.silent).1 = .error e

/-- Under the key is the text of a cut of one of the jobs. If all jobs whose cuts go to its
place are for transcripts that were stored cuts, it is the cut of silence. -/
def HoldsResult (start : FileTree) (jobs : List Job) (now : FileTree) (key : String) : Prop :=
  ∃ c : Cut, c.Storable ∧ now.read key = .ok c.prettyJson ∧
    ((∀ other ∈ jobs, start.placeOf other.output = start.placeOf key →
      start.HoldsCut other.transcript) → c = Cut.silent)

/-- How far the work on a transcript has come in a run of these jobs from the first tree
on, which writes to these places. Where the transcript was a stored cut, its own cut is
silent, and if there is none, that is because it could not be stored. Where a cut was
stored, there still is one, though it may be that of another job with the same place. -/
def Repeats (start : FileTree) (written : List Place) (jobs : List Job) (now : FileTree)
    (job : Job) : Progress StorageError → Prop
  | .waiting => True
  | .probing t _ => t.Loadable ∧ (start.HoldsCut job.transcript → t = Transcript.silent)
  | .storing cut => cut.Storable ∧ (start.HoldsCut job.transcript → cut = Cut.silent)
  | .finished (.error e) => start.HoldsCut job.transcript → NotStored start written job.output e
  | .finished (.ok cut) => (start.HoldsCut job.transcript → cut = Cut.silent) ∧
      HoldsResult start jobs now job.output

/-- What a run keeps of the tree: only these places were written, each file that was a
stored cut is one still, and no transcript is too long. -/
structure TreeKept (start : FileTree) (written : List Place) (now : FileTree) : Prop where
  grows : start.Grows written now
  cuts : ∀ path, start.HoldsCut path → now.HoldsCut path
  countable : now.Countable

/-- Storing a cut at one of the places keeps the tree, whether or not it succeeds. Where
it fails it has made directories at most. -/
theorem TreeKept.store {cut : Cut} {result : Except StorageError Unit} {key : String}
    (h : TreeKept start written now) (hKey : start.placeOf key ∈ written) (hCut : cut.Storable)
    (hStore : Storage.store now key cut = (result, now')) : TreeKept start written now' where
  grows := by
    refine h.grows.trans ((Storage.of_store hStore).1.mono ?_)
    rw [h.grows.placeOf_eq]
    simpa using hKey
  cuts path hPath := Storage.holdsCut_of_store hCut hStore (h.cuts path hPath)
  countable := Storage.countable_of_store hCut hStore h.countable

section Storing

variable {cut : Cut} {result : Except StorageError Unit} (hTree : TreeKept start written now)
  (hJob : job ∈ jobs) (hCut : cut.Storable)
  (hSilent : start.HoldsCut job.transcript → cut = Cut.silent)
  (hStore : Storage.store now job.output cut = (result, now'))

include hTree hJob hCut hSilent hStore

/-- Where a cut was stored there is one still when a job has stored its own. -/
theorem HoldsResult.store {key : String} (h : HoldsResult start jobs now key) :
    HoldsResult start jobs now' key := by
  obtain ⟨c, hStored, hRead, hOthers⟩ := h
  rcases Storage.read_after_store hStore hRead with hSame | ⟨hPlace, hNew⟩
  · exact ⟨c, hStored, hSame, hOthers⟩
  · rw [hTree.grows.placeOf_eq, hTree.grows.placeOf_eq] at hPlace
    exact ⟨cut, hCut, hNew, fun hAll => hSilent (hAll job hJob hPlace.symm)⟩

/-- What another job stores spoils nothing. Where a sidecar is written over, it is by a
cut, and by a silent one if only stored cuts share the place. -/
theorem Repeats.store {other : Job} {q : Progress StorageError}
    (h : Repeats start written jobs now other q) : Repeats start written jobs now' other q := by
  cases q with
  | finished own =>
      cases own with
      | error e => exact h
      | ok _ => exact ⟨h.1, h.2.store hTree hJob hCut hSilent hStore⟩
  | _ => exact h

end Storing

variable {width : Nat} {trace : List Request} {directory : Option String}
  {transcripts : List String} {tasks : List (Task StorageError)}

theorem exists_result {ε : Type} {p : Progress ε} (h : p.isFinished = true) :
    ∃ result, p = .finished result := by
  cases p with
  | finished result => exact ⟨result, rfl⟩
  | _ => cases h

/-- Where all tasks are finished, each has its own result. -/
theorem zipWith_results {ε β : Type} (f : Job → Except ε Cut → β) {tasks : List (Task ε)}
    (h : ∀ task ∈ tasks, task.progress.isFinished = true) :
    List.zipWith f (tasks.map Task.job) (tasks.filterMap fun task => task.progress.result?) =
      tasks.filterMap fun task => task.progress.result?.map (f task.job) := by
  induction tasks with
  | nil => rfl
  | cons task tasks ih =>
      have hRest := ih fun other hOther => h other (List.mem_cons_of_mem task hOther)
      obtain ⟨result, hProgress⟩ := exists_result (h task List.mem_cons_self)
      have hResult : task.progress.result? = some result := by
        rw [hProgress]
        rfl
      simp [hResult, hRest]

variable {settings : Settings} {o : Outcome}

/-- Where a run over transcripts ends, the work on each of them is finished. -/
theorem CanEnd.exists_tasks (h : CanEnd reply settings transcripts disk disk' o)
    (hSome : transcripts ≠ []) :
    ∃ trace tasks, Batch.Run (Disk.host reply) (Nat.max 1 settings.maxConcurrent)
        (disk, (transcripts.map (settled disk.tree settings.directory)).map Task.new) trace
        (disk', tasks) ∧
      tasks.map Task.job = transcripts.map (settled disk.tree settings.directory) ∧
      (∀ task ∈ tasks, task.progress.isFinished = true) ∧
      o = outcome settings.strict (tasks.map Task.job)
        (tasks.filterMap fun task => task.progress.result?) := by
  rw [CanEnd, if_neg hSome] at h
  obtain ⟨trace, results, ⟨tasks, hRun, hMaximal, rfl⟩, rfl⟩ := h
  exact ⟨trace, tasks, hRun, hRun.jobs_new, Batch.all_finished (Nat.le_max_left 1 _) hMaximal,
    by rw [hRun.jobs_new]⟩

end Sidecar

end RoughCut
