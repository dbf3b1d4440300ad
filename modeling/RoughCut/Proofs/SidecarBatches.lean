import Mathlib.Data.List.Nodup
import RoughCut.Proofs.JobRequests
import RoughCut.Proofs.ParentDirectories
import RoughCut.Proofs.Schedules
import RoughCut.Proofs.Text.Utf8
import RoughCut.Sidecar

/-!
Runs over many transcripts. Where the sidecars and the transcripts are all different
files, a run that ends well has written the cut of each transcript as it was at the
start, in whatever order the requests were made, and no transcript was changed.
Sidecars are named after stems alone, so two of them may be one file, and then the cut
that is written last is all that remains.
-/

namespace RoughCut

open Json

/-- At a place stands a file with the text of a transcript. -/
def FileTree.Holds (tree : FileTree) (place : Place) (t : Transcript) : Prop :=
  ∃ content text, tree.at? place = some (.file content) ∧
    Text.Utf8.decode? content = some text ∧ Transcript.ofJson text = .ok t

/-- What is held is what the text of the file says. -/
theorem FileTree.Holds.ofJson_eq {tree : FileTree} {place : Place} {t : Transcript}
    (h : tree.Holds place t) {text : String}
    (hFile : tree.at? place = some (.file (Text.Utf8.encode text))) :
    Transcript.ofJson text = .ok t := by
  obtain ⟨content, found, hThere, hText, hJson⟩ := h
  rw [hFile] at hThere
  cases hThere
  rw [Text.Utf8.decode?_encode] at hText
  cases hText
  exact hJson

namespace Storage

variable {t t' : FileTree} {key : String}

/-- A transcript that is loaded is in the file to which its key leads. -/
theorem of_load {transcript : Transcript} (h : load t key = .ok transcript) :
    ∃ text, t.read key = .ok text ∧ Transcript.ofJson text = .ok transcript := by
  obtain ⟨_, _, h⟩ := bind_eq_ok_iff.mp h
  obtain ⟨text, hText, h⟩ := bind_eq_ok_iff.mp h
  refine ⟨text, ?_, ?_⟩
  · cases hRead : t.read key with
    | ok found =>
        rw [hRead] at hText
        cases hText
        rfl
    | error cause =>
        rw [hRead] at hText
        cases hText
  · cases hJson : Transcript.ofJson text with
    | ok found =>
        rw [hJson] at h
        cases h
        rfl
    | error fault =>
        rw [hJson] at h
        cases h

/-- A transcript is loaded exactly if its key can be one, a text is found there, and the
text can be taken for a transcript. -/
theorem load_eq_ok_iff {transcript : Transcript} :
    load t key = .ok transcript ↔ checkKey key = .ok () ∧
      ∃ text, t.read key = .ok text ∧ Transcript.ofJson text = .ok transcript := by
  constructor
  · intro h
    obtain ⟨_, hKey, -⟩ := bind_eq_ok_iff.mp h
    exact ⟨hKey, of_load h⟩
  · rintro ⟨hKey, text, hRead, hJson⟩
    refine bind_eq_ok_iff.mpr ⟨(), hKey, bind_eq_ok_iff.mpr ⟨text, ?_, ?_⟩⟩
    · rw [hRead]
      rfl
    · rw [hJson]

/-- Storing writes to one place at most, and what was stored can be read. -/
theorem of_store {cut : Cut} {result : Except StorageError Unit}
    (h : store t key cut = (result, t')) :
    t.Grows [t.placeOf key] t' ∧ (result = .ok () → t'.read key = .ok cut.prettyJson) := by
  rcases store_cases h with ⟨⟨e, rfl⟩, hMakes⟩ | ⟨rfl, -, made, -, hMakes, hWrite⟩
  · exact ⟨hMakes.grows.mono (List.nil_subset _), nofun⟩
  · obtain ⟨hGrows, hCheck, hWalk, hThere⟩ := FileTree.of_write hWrite
    rw [hMakes.placeOf_eq] at hGrows
    exact ⟨(hMakes.grows.mono (List.nil_subset _)).trans hGrows, fun _ =>
      FileTree.read_eq_ok_iff.mpr ⟨hCheck, hWalk, _, hThere, Text.Utf8.decode?_encode _⟩⟩

end Storage

theorem Disk.run_load (reply : String → Probe.Reply) (key : String) (disk : Disk) :
    ((Disk.host reply).load key).run disk = (Storage.load disk.tree key, disk) :=
  rfl

theorem Disk.run_store {reply : String → Probe.Reply} {disk : Disk} {key : String} {cut : Cut}
    {result : Except StorageError Unit} {tree : FileTree}
    (h : Storage.store disk.tree key cut = (result, tree)) :
    ((Disk.host reply).store key cut).run disk = (result, { disk with tree := tree }) := by
  simp only [Disk.host, Disk.store, StateT.run_modifyGet, h]
  rfl

/-- What a request of a job comes to on a disk: how far the work is then, and the disk. -/
inductive Disk.Answers (reply : String → Probe.Reply) (job : Job) (disk : Disk) :
    Progress StorageError → Progress StorageError → Disk → Prop where
  | load : Answers reply job disk .waiting
      (job.afterLoad (Storage.load disk.tree job.transcript)) disk
  | probe (t : Transcript) (path : String) : Answers reply job disk (.probing t path)
      (.storing (t.measured (some (reply path))).cut) { disk with probed := disk.probed ++ [path] }
  | store {cut : Cut} {result : Except StorageError Unit} {tree : FileTree}
      (hStore : Storage.store disk.tree job.output cut = (result, tree)) :
      Answers reply job disk (.storing cut) (Job.afterStore cut result) { disk with tree := tree }
  | rest (result : Except StorageError Cut) :
      Answers reply job disk (.finished result) (.finished result) disk

/-- Each step of the work on a transcript is one of four as far as the disk is
concerned. Only the one that stores a cut changes the tree. -/
theorem Disk.answers_of_step {reply : String → Probe.Reply} {job : Job}
    {p p' : Progress StorageError} {disk disk' : Disk}
    (h : (job.step (Disk.host reply) p).run disk = (p', disk')) :
    Answers reply job disk p p' disk' := by
  cases Job.answers_of_step h with
  | load hLoad =>
      cases hLoad
      exact .load
  | probe hProbe =>
      cases hProbe
      exact .probe _ _
  | @store cut _ _ hStored =>
      cases hStore : Storage.store disk.tree job.output cut with
      | mk result tree =>
          rw [Disk.run_store hStore] at hStored
          cases hStored
          exact .store hStore
  | rest result => exact .rest result

/-- What work on a job in a row comes to on a disk, and the tree that it leaves. -/
inductive Disk.Worked (reply : String → Probe.Reply) (job : Job) (tree : FileTree) :
    Except StorageError Cut → FileTree → Prop where
  | unloaded {e : StorageError} (hLoad : Storage.load tree job.transcript = .error e) :
      Worked reply job tree (.error e) tree
  | refused {t : Transcript} {e : StorageError} {tree' : FileTree}
      (hLoad : Storage.load tree job.transcript = .ok t)
      (hStore : Storage.store tree job.output
        (job.measured (fun path => some (reply path)) t).cut = (.error e, tree')) :
      Worked reply job tree (.error e) tree'
  | stored {t : Transcript} {tree' : FileTree}
      (hLoad : Storage.load tree job.transcript = .ok t)
      (hStore : Storage.store tree job.output
        (job.measured (fun path => some (reply path)) t).cut = (.ok (), tree')) :
      Worked reply job tree (.ok (job.measured (fun path => some (reply path)) t).cut) tree'

/-- Measuring leaves the tree as it is. -/
theorem Disk.run_measure {reply : String → Probe.Reply} {job : Job} {t u : Transcript}
    {disk probed : Disk} (h : (job.measure (Disk.host reply) t).run disk = (u, probed)) :
    u = job.measured (fun path => some (reply path)) t ∧ probed.tree = disk.tree := by
  unfold Job.measure at h
  unfold Job.measured
  cases hFootage : job.footageFor t with
  | none =>
      rw [hFootage] at h
      cases h
      exact ⟨rfl, rfl⟩
  | some path =>
      rw [hFootage] at h
      cases h
      exact ⟨rfl, rfl⟩

theorem Disk.load_of_run {reply : String → Probe.Reply} {disk disk' : Disk} {key : String}
    {result : Except StorageError Transcript}
    (h : ((Disk.host reply).load key).run disk = (result, disk')) :
    Storage.load disk.tree key = result ∧ disk' = disk := by
  rw [Disk.run_load] at h
  cases h
  exact ⟨rfl, rfl⟩

theorem Disk.store_of_run {reply : String → Probe.Reply} {disk disk' : Disk} {key : String}
    {cut : Cut} {result : Except StorageError Unit}
    (h : ((Disk.host reply).store key cut).run disk = (result, disk')) :
    Storage.store disk.tree key cut = (result, disk'.tree) := by
  cases hStore : Storage.store disk.tree key cut with
  | mk own tree =>
      rw [Disk.run_store hStore] at h
      cases h
      rfl

/-- The work on one transcript, when nothing else happens meanwhile, ends in one of
three ways. -/
theorem Disk.worked_of_process {reply : String → Probe.Reply} {job : Job} {disk disk' : Disk}
    {result : Except StorageError Cut}
    (h : (job.process (Disk.host reply)).run disk = (result, disk')) :
    Worked reply job disk.tree result disk'.tree := by
  cases Job.worked_of_process h with
  | unloaded hLoad =>
      obtain ⟨hLoad, rfl⟩ := Disk.load_of_run hLoad
      exact .unloaded hLoad
  | refused hLoad hMeasure hStore =>
      obtain ⟨hLoad, rfl⟩ := Disk.load_of_run hLoad
      obtain ⟨rfl, hTree⟩ := Disk.run_measure hMeasure
      exact .refused hLoad (hTree ▸ Disk.store_of_run hStore)
  | stored hLoad hMeasure hStore =>
      obtain ⟨hLoad, rfl⟩ := Disk.load_of_run hLoad
      obtain ⟨rfl, hTree⟩ := Disk.run_measure hMeasure
      exact .stored hLoad (hTree ▸ Disk.store_of_run hStore)

/-- The work on one transcript always ends. -/
theorem Disk.exists_worked (reply : String → Probe.Reply) (job : Job) (disk : Disk) :
    ∃ tree, Worked reply job disk.tree ((job.process (Disk.host reply)).run disk).1 tree := by
  cases hRun : (job.process (Disk.host reply)).run disk with
  | mk result disk' => exact ⟨disk'.tree, worked_of_process hRun⟩

namespace Sidecar

variable {reply : String → Probe.Reply} {start now now' : FileTree} {job : Job}
  {p p' : Progress StorageError} {disk disk' : Disk} {written : List Place}

/-- The transcript of a job was in the tree at the start, where nothing is written. -/
def Found (start : FileTree) (written : List Place) (job : Job) (t : Transcript) : Prop :=
  start.Holds (start.placeOf job.transcript) t ∧ start.placeOf job.transcript ∉ written

/-- How far the work on a transcript of the first tree has come on the second. What it
has found was in the first tree, and what it has finished is in the second. -/
def Sound (reply : String → Probe.Reply) (start : FileTree) (written : List Place)
    (now : FileTree) (job : Job) : Progress StorageError → Prop
  | .waiting => True
  | .probing t path => Found start written job t ∧ job.footageFor t = some path
  | .storing cut => ∃ t, Found start written job t ∧
      cut = (job.measured (fun path => some (reply path)) t).cut
  | .finished (.error _) => True
  | .finished (.ok cut) => ∃ t, Found start written job t ∧
      cut = (job.measured (fun path => some (reply path)) t).cut ∧
        now.read job.output = .ok cut.prettyJson

/-- Work stays sound while others write elsewhere. -/
theorem Sound.grows {others : List Place} (h : Sound reply start written now job p)
    (hGrows : now.Grows others now') (hPlace : now.placeOf job.output ∉ others) :
    Sound reply start written now' job p := by
  cases p with
  | finished result =>
      cases result with
      | error e => trivial
      | ok cut =>
          obtain ⟨t, hFound, hCut, hRead⟩ := h
          exact ⟨t, hFound, hCut, hGrows.read hPlace hRead⟩
  | _ => exact h

/-- A request of a job on a disk keeps its work sound and writes to no place but that
of its output. -/
theorem sound_step (hGrows : start.Grows written disk.tree)
    (hFree : ∀ text, disk.tree.read job.transcript = .ok text →
      start.placeOf job.transcript ∉ written)
    (h : Sound reply start written disk.tree job p)
    (hStep : (job.step (Disk.host reply) p).run disk = (p', disk')) :
    Sound reply start written disk'.tree job p' ∧
      disk.tree.Grows [disk.tree.placeOf job.output] disk'.tree := by
  cases Disk.answers_of_step hStep with
  | load =>
      refine ⟨?_, .refl _⟩
      cases hLoad : Storage.load disk.tree job.transcript with
      | error e => trivial
      | ok t =>
          obtain ⟨text, hRead, hJson⟩ := Storage.of_load hLoad
          obtain ⟨_, _, content, hThere, hText⟩ := FileTree.read_eq_ok_iff.mp hRead
          rw [hGrows.placeOf_eq] at hThere
          have hPlace := hFree text hRead
          have hFound : Found start written job t :=
            ⟨⟨content, text, (hGrows.file_iff hPlace).mp hThere, hText, hJson⟩, hPlace⟩
          rw [Job.afterLoad]
          cases hFootage : job.footageFor t with
          | some path => exact ⟨hFound, hFootage⟩
          | none => exact ⟨t, hFound, by rw [Job.measured, hFootage]⟩
  | probe t path =>
      obtain ⟨hFound, hFootage⟩ := h
      exact ⟨⟨t, hFound, by rw [Job.measured, hFootage]⟩, .refl _⟩
  | @store cut result tree hStore =>
      obtain ⟨t, hFound, hCut⟩ := h
      obtain ⟨hWritten, hRead⟩ := Storage.of_store hStore
      refine ⟨?_, hWritten⟩
      cases result with
      | error e => trivial
      | ok _ => exact ⟨t, hFound, hCut, hRead rfl⟩
  | rest result => exact ⟨h, .refl _⟩

/-! A run over many transcripts. -/

variable {directory : Option String} {transcripts : List String}

/-- The job for a transcript with what is in the tree before the run. -/
def settled (tree : FileTree) (directory : Option String) (transcript : String) : Job where
  transcript := transcript
  footage := Storage.findFootage tree transcript
  output := Storage.sidecarPath transcript directory

/-- Where the sidecars of some transcripts go. -/
def sidecarPlaces (tree : FileTree) (directory : Option String) (transcripts : List String) :
    List Place :=
  transcripts.map fun transcript => tree.placeOf (Storage.sidecarPath transcript directory)

/-- No two sidecars are one file, and none is another transcript that is given. -/
structure Apart (tree : FileTree) (directory : Option String) (transcripts : List String) :
    Prop where
  sidecars : (sidecarPlaces tree directory transcripts).Nodup
  transcripts : ∀ first ∈ transcripts, ∀ second ∈ transcripts, first ≠ second →
    tree.placeOf (Storage.sidecarPath first directory) ≠ tree.placeOf second

/-- A run of the tool on a disk can end like this, with the requests of its jobs made in
some order. -/
def CanEnd (reply : String → Probe.Reply) (settings : Settings) (transcripts : List String)
    (disk disk' : Disk) (o : Outcome) : Prop :=
  if transcripts = [] then disk' = disk ∧ o = usage
  else
    let jobs := transcripts.map (settled disk.tree settings.directory)
    ∃ trace results,
      Batch.Ends (Disk.host reply) (Nat.max 1 settings.maxConcurrent) jobs disk trace disk' results ∧
        o = outcome settings.strict jobs results

/-- A transcript that can be read is not where a sidecar goes. -/
theorem Apart.not_mem (h : Apart start directory transcripts)
    (hWorking : start.Stands start.working)
    (hGrows : start.Grows (sidecarPlaces start directory transcripts) now) {transcript text : String}
    (hMem : transcript ∈ transcripts) (hRead : now.read transcript = .ok text) :
    start.placeOf transcript ∉ sidecarPlaces start directory transcripts := by
  intro hPlace
  obtain ⟨other, hOther, hSame⟩ := List.mem_map.mp hPlace
  by_cases hOwn : other = transcript
  · subst hOwn
    obtain ⟨_, hWalk, content, hThere, _⟩ := FileTree.read_eq_ok_iff.mp hRead
    have hStands : now.Stands now.working := by
      rw [hGrows.working]
      exact fun around hAround => hGrows.directory _ (hWorking around hAround)
    refine Storage.placeOf_sidecarPath_ne hStands hWalk hThere directory ?_
    rwa [hGrows.placeOf_eq, hGrows.placeOf_eq]
  · exact h.transcripts other hOther transcript hMem hOwn hSame

/-- Each task of a run is one for a transcript. -/
theorem exists_transcript_of_mem {tree : FileTree} {tasks : List (Task StorageError)}
    {task : Task StorageError}
    (hJobs : tasks.map Task.job = transcripts.map (settled tree directory))
    (hTask : task ∈ tasks) :
    ∃ transcript ∈ transcripts, task.job = settled tree directory transcript := by
  have hJob : task.job ∈ transcripts.map (settled tree directory) := by
    rw [← hJobs]
    exact List.mem_map_of_mem hTask
  obtain ⟨transcript, hMem, hJob⟩ := List.mem_map.mp hJob
  exact ⟨transcript, hMem, hJob.symm⟩

/-- What a run keeps: the work on each transcript is sound, and only sidecars were
written. -/
structure Kept (reply : String → Probe.Reply) (start : FileTree) (written : List Place)
    (c : Disk × List (Task StorageError)) : Prop where
  grows : start.Grows written c.1.tree
  sound : ∀ task ∈ c.2, Sound reply start written c.1.tree task.job task.progress

variable {width : Nat} {c d : Disk × List (Task StorageError)} {trace : List Request}

/-- A step of any task leaves every file alone that is not the place of its own sidecar.
Since no two transcripts share one, all that is known of the others stays true. -/
theorem kept_of_step {request : Request} (hApart : Apart start directory transcripts)
    (hWorking : start.Stands start.working)
    (hJobs : c.2.map Task.job = transcripts.map (settled start directory))
    (hKept : Kept reply start (sidecarPlaces start directory transcripts) c)
    (h : Batch.Step (Disk.host reply) width c request d) :
    Kept reply start (sidecarPlaces start directory transcripts) d := by
  cases h with
  | @request before after task task' disk disk' request hRequest hWindow hAnswer =>
      have hPlaces : (before ++ task :: after).map (fun t => start.placeOf t.job.output) =
          sidecarPlaces start directory transcripts := by
        have hOutputs := congrArg (List.map fun job => start.placeOf job.output) hJobs
        simpa [sidecarPlaces, settled, Function.comp_def] using hOutputs
      have hTask : task ∈ before ++ task :: after := by simp
      obtain ⟨transcript, hMem, hJob⟩ := exists_transcript_of_mem hJobs hTask
      have hFree : ∀ text, disk.tree.read task.job.transcript = .ok text →
          start.placeOf task.job.transcript ∉ sidecarPlaces start directory transcripts := by
        rw [hJob]
        exact fun text hRead => hApart.not_mem hWorking hKept.grows hMem hRead
      obtain ⟨hSound, hGrows⟩ := sound_step hKept.grows hFree
        (hKept.sound task hTask) (Task.progress_step hAnswer)
      have hDistinct := hApart.sidecars
      rw [← hPlaces, List.map_append, List.map_cons, List.nodup_middle, List.nodup_cons] at hDistinct
      refine ⟨hKept.grows.trans (hGrows.mono ?_), ?_⟩
      · rw [hKept.grows.placeOf_eq, ← hPlaces]
        simp
      · intro other hOther
        by_cases hSame : other = task'
        · rw [hSame, Task.job_step hAnswer]
          exact hSound
        · have hElsewhere : other ∈ before ++ after := by
            simpa [hSame] using hOther
          refine (hKept.sound other (by simp at hElsewhere ⊢; tauto)).grows hGrows ?_
          rw [List.mem_singleton, hKept.grows.placeOf_eq, hKept.grows.placeOf_eq]
          intro hPlace
          refine hDistinct.1 ?_
          rw [← hPlace, ← List.map_append]
          exact List.mem_map_of_mem hElsewhere

/-- What each step keeps is kept by a whole run, in whatever order the tasks took their
steps. -/
theorem kept_of_run (hApart : Apart start directory transcripts)
    (hWorking : start.Stands start.working)
    (hJobs : c.2.map Task.job = transcripts.map (settled start directory))
    (hKept : Kept reply start (sidecarPlaces start directory transcripts) c)
    (h : Batch.Run (Disk.host reply) width c trace d) :
    Kept reply start (sidecarPlaces start directory transcripts) d := by
  induction h with
  | start => exact hKept
  | step prior last ih => exact kept_of_step hApart hWorking (prior.jobs.trans hJobs) ih last

/-- Before a run has begun there is nothing to be kept but the tree itself. -/
theorem kept_new (reply : String → Probe.Reply) (disk : Disk) (written : List Place)
    (jobs : List Job) : Kept reply disk.tree written (disk, jobs.map Task.new) where
  grows := .refl disk.tree
  sound := List.forall_mem_map.mpr fun _ _ => trivial

/-! The run of the tool itself. -/

/-- Whether there is a file on a disk. -/
def isFileNow (path : String) : StateM Disk Bool :=
  return (← get).tree.isFile path

theorem run_findM? (paths : List String) (disk : Disk) :
    (paths.findM? isFileNow).run disk = (paths.find? disk.tree.isFile, disk) := by
  induction paths with
  | nil => rfl
  | cons path paths ih =>
      rw [List.findM?, List.find?_cons]
      change (match disk.tree.isFile path with
        | true => pure (some path)
        | false => paths.findM? isFileNow : StateM Disk (Option String)).run disk = _
      cases disk.tree.isFile path with
      | true => rfl
      | false => exact ih

/-- The job for a transcript is settled by what is on the disk when it is made, and
making it changes nothing. -/
theorem run_job (directory : Option String) (transcript : String) (disk : Disk) :
    (Sidecar.job isFileNow directory transcript).run disk =
      (settled disk.tree directory transcript, disk) := by
  rw [Sidecar.job, StateT.run_bind, run_findM?, settled, Storage.findFootage]
  generalize (Storage.footagePaths transcript).find? disk.tree.isFile = footage
  rfl

theorem run_mapM {σ α β : Type} {f : α → StateM σ β} {g : α → β} {s : σ}
    (h : ∀ a, (f a).run s = (g a, s)) (as : List α) : (as.mapM f).run s = (as.map g, s) := by
  induction as with
  | nil => rfl
  | cons a as ih =>
      rw [List.mapM_cons, StateT.run_bind, h]
      change StateT.run (as.mapM f >>= fun bs => pure (g a :: bs)) s = _
      rw [StateT.run_bind, ih]
      rfl

/-- A run over transcripts is a batch of their jobs, settled on the disk as it was. -/
theorem run_runOn (reply : String → Probe.Reply) (settings : Settings)
    {transcripts : List String} (hSome : transcripts ≠ []) (disk : Disk) :
    (runOn reply settings transcripts).run disk =
      (outcome settings.strict (transcripts.map (settled disk.tree settings.directory))
        ((Batch.process (Disk.host reply) (transcripts.map (settled disk.tree settings.directory))
          settings.maxConcurrent).run disk).1,
        ((Batch.process (Disk.host reply) (transcripts.map (settled disk.tree settings.directory))
          settings.maxConcurrent).run disk).2) := by
  have hIsEmpty : transcripts.isEmpty = false := by simpa using hSome
  rw [runOn, run, hIsEmpty]
  change StateT.run (do
    let jobs ← transcripts.mapM (Sidecar.job isFileNow settings.directory)
    let results ← Batch.process (Disk.host reply) jobs settings.maxConcurrent
    return outcome settings.strict jobs results) disk = _
  rw [StateT.run_bind, run_mapM fun transcript => run_job settings.directory transcript disk]
  rfl

/-- The run of the tool that goes on in rounds is one that can be. -/
theorem canEnd_runOn (reply : String → Probe.Reply) (settings : Settings)
    (transcripts : List String) (disk : Disk) :
    CanEnd reply settings transcripts disk ((runOn reply settings transcripts).run disk).2
      ((runOn reply settings transcripts).run disk).1 := by
  by_cases hNone : transcripts = []
  · subst hNone
    exact ⟨rfl, rfl⟩
  · obtain ⟨trace, hEnds⟩ := Batch.ends_process (Disk.host reply)
      (transcripts.map (settled disk.tree settings.directory)) settings.maxConcurrent disk
    rw [CanEnd, if_neg hNone, run_runOn reply settings hNone]
    exact ⟨trace, _, hEnds, rfl⟩

/-! What a run leaves. -/

/-- For each transcript there is a cut of what it held before the run, and what it holds
is still the same. -/
def CutsKept (reply : String → Probe.Reply) (settings : Settings) (transcripts : List String)
    (disk disk' : Disk) : Prop :=
  ∀ transcript ∈ transcripts, ∃ t,
    disk.tree.Holds (disk.tree.placeOf transcript) t ∧
    disk'.tree.at? (disk.tree.placeOf transcript) = disk.tree.at? (disk.tree.placeOf transcript) ∧
    disk'.tree.read (Storage.sidecarPath transcript settings.directory) =
      .ok ((settled disk.tree settings.directory transcript).measured
        (fun path => some (reply path)) t).cut.prettyJson

theorem ok_of_toOption {ε α : Type} {x : Except ε α} {a : α} (h : x.toOption = some a) :
    x = .ok a := by
  cases x with
  | ok b => exact congrArg Except.ok (Option.some.inj h)
  | error e => cases h

variable {settings : Settings} {o : Outcome}

/-- A result is a failure if there is an error in the place of a cut. -/
theorem isFailure_iff {result : Except StorageError Cut} :
    isFailure result = true ↔ ∃ e, result = .error e := by
  cases result <;> simp [isFailure]

/-- A result has errors if there is a cut and the cut reports some. -/
theorem hasErrors_iff {result : Except StorageError Cut} :
    hasErrors result = true ↔ ∃ cut, result = .ok cut ∧ cut.report.errors ≠ [] := by
  cases result <;> simp [hasErrors]

section Status

variable {strict : Bool} {results : List (Except StorageError Cut)}

/-- A failure outweighs all else. -/
theorem status_eq_one_iff :
    status strict results = 1 ↔ ∃ result ∈ results, ∃ e, result = .error e := by
  simp only [← isFailure_iff, ← List.any_eq_true]
  unfold status
  split_ifs with hFailure hErrors <;> simp [hFailure]

/-- Errors in a cut count in a strict run without a failure. -/
theorem status_eq_two_iff : status strict results = 2 ↔
    (¬ ∃ result ∈ results, ∃ e, result = .error e) ∧ strict = true ∧
      ∃ result ∈ results, ∃ cut, result = .ok cut ∧ cut.report.errors ≠ [] := by
  simp only [← isFailure_iff, ← hasErrors_iff, ← List.any_eq_true, ← Bool.and_eq_true]
  unfold status
  split_ifs with hFailure hErrors
  · simp [hFailure]
  · simpa [hFailure] using hErrors
  · simpa [hFailure] using hErrors

/-- A run ends well exactly if nothing has failed and, where it is strict, no cut has an
error. -/
theorem status_eq_zero_iff : status strict results = 0 ↔
    (¬ ∃ result ∈ results, ∃ e, result = .error e) ∧ ¬ (strict = true ∧
      ∃ result ∈ results, ∃ cut, result = .ok cut ∧ cut.report.errors ≠ []) := by
  simp only [← isFailure_iff, ← hasErrors_iff, ← List.any_eq_true, ← Bool.and_eq_true]
  unfold status
  split_ifs with hFailure hErrors
  · simp [hFailure]
  · simpa [hFailure] using hErrors
  · simpa [hFailure] using hErrors

/-- A run that ends with the status zero has made a cut of every transcript. -/
theorem exists_cut_of_status (h : status strict results = 0) :
    ∀ result ∈ results, ∃ cut, result = .ok cut := by
  intro result hResult
  cases result with
  | ok cut => exact ⟨cut, rfl⟩
  | error e => exact absurd ⟨_, hResult, e, rfl⟩ (status_eq_zero_iff.mp h).1

end Status

/-- Where the sidecars and the transcripts are different files, a run that ends well has
made the cut of each transcript as it was before the run, and it has changed no
transcript. The working directory is there. -/
theorem cuts_kept (hWorking : disk.tree.Stands disk.tree.working)
    (hApart : Apart disk.tree settings.directory transcripts)
    (h : CanEnd reply settings transcripts disk disk' o) (hStatus : o.status = 0) :
    CutsKept reply settings transcripts disk disk' := by
  intro transcript hMem
  rw [CanEnd, if_neg (List.ne_nil_of_mem hMem)] at h
  obtain ⟨trace, results, ⟨tasks, hRun, hMaximal, rfl⟩, rfl⟩ := h
  have hKept := kept_of_run hApart hWorking (Batch.map_job_new _)
    (kept_new reply disk _ _) hRun
  have hFinished := Batch.all_finished (Nat.le_max_left 1 _) hMaximal
  have hTranscript : settled disk.tree settings.directory transcript ∈ tasks.map Task.job := by
    rw [hRun.jobs_new]
    exact List.mem_map_of_mem hMem
  obtain ⟨task, hTask, hJob⟩ := List.mem_map.mp hTranscript
  obtain ⟨cut, hCut⟩ : ∃ cut, task.progress = .finished (.ok cut) := by
    cases hProgress : task.progress with
    | finished result =>
        have hResult : result ∈ tasks.filterMap fun task => task.progress.result? :=
          List.mem_filterMap.mpr ⟨task, hTask, by rw [hProgress]; rfl⟩
        obtain ⟨cut, rfl⟩ := exists_cut_of_status hStatus result hResult
        exact ⟨cut, rfl⟩
    | _ => simpa [hProgress, Progress.isFinished] using hFinished task hTask
  have hSound := hKept.sound task hTask
  rw [hCut, hJob] at hSound
  obtain ⟨t, ⟨hHolds, hPlace⟩, rfl, hRead⟩ := hSound
  refine ⟨t, hHolds, ?_, hRead⟩
  obtain ⟨content, _, hThere, _⟩ := hHolds
  exact ((hKept.grows.file_iff hPlace).mpr hThere).trans hThere.symm

/-- Two transcripts, of which the second has footage, and a directory for cuts that is
not there yet. -/
theorem cuts_kept_directory :
    let text (tokens : String) : Entry :=
      .file (Text.Utf8.encode ("\x7b\"tokens\":[" ++ tokens ++ "]\x7d"))
    let tree : FileTree :=
      ⟨[(["a.json"], text "[\"slate\",0]"), (["b.json"], text ""), (["b.mov"], .file [])], []⟩
    let settings : Settings := { directory := some "cuts", maxConcurrent := 2 }
    let reply (_ : String) : Probe.Reply := .ran true (Text.Utf8.encode "9.5") []
    let transcripts := ["a.json", "b.json"]
    tree.Stands tree.working ∧ Apart tree settings.directory transcripts ∧
      ∃ disk' o, CanEnd reply settings transcripts ⟨tree, []⟩ disk' o ∧ o.status = 0 ∧
        CutsKept reply settings transcripts ⟨tree, []⟩ disk' := by
  intro text tree settings reply transcripts
  have hWorking : tree.Stands tree.working := by
    intro around hAround
    rw [List.prefix_nil.mp hAround]
    rfl
  have hApart : Apart tree settings.directory transcripts :=
    ⟨by decide +kernel, by decide +kernel⟩
  have hEnd := canEnd_runOn reply settings transcripts ⟨tree, []⟩
  have hStatus : ((runOn reply settings transcripts).run ⟨tree, []⟩).1.status = 0 := by
    decide +kernel
  exact ⟨hWorking, hApart, _, _, hEnd, hStatus, cuts_kept hWorking hApart hEnd hStatus⟩

/-- Two transcripts with one stem have one sidecar, which cannot hold the cuts of both.
A sidecar with the name of another transcript is written over it. A run over either two
can end with the status zero. -/
theorem cuts_lost :
    let text (tokens : String) : String := "\x7b\"tokens\":[" ++ tokens ++ "]\x7d"
    let tree (name : String) : FileTree :=
      ⟨[(["a.json"], .file (Text.Utf8.encode (text "[\"slate\",0]"))),
        ([name], .file (Text.Utf8.encode (text "")))], []⟩
    let settings : Settings := {}
    let reply (_ : String) : Probe.Reply := .notRun ""
    ∀ name ∈ ["a.txt", "a.segments.json"],
      ∃ disk' o, CanEnd reply settings ["a.json", name] ⟨tree name, []⟩ disk' o ∧ o.status = 0 ∧
        ¬ CutsKept reply settings ["a.json", name] ⟨tree name, []⟩ disk' := by
  intro text tree settings reply name hName
  refine ⟨_, _, canEnd_runOn reply settings ["a.json", name] ⟨tree name, []⟩, ?_, ?_⟩
  · revert name
    decide +kernel
  · intro hKept
    obtain ⟨t, hHolds, -, hRead⟩ := hKept "a.json" (by simp)
    obtain ⟨u, hOther, hSame, hOtherRead⟩ := hKept name (by simp)
    have hFirst : t = ⟨[⟨"slate", Seconds.zero⟩], Seconds.zero⟩ := by
      have hJson : Transcript.ofJson (text "[\"slate\",0]") = .ok t := hHolds.ofJson_eq rfl
      have hParsed : (Transcript.ofJson (text "[\"slate\",0]")).toOption =
          some ⟨[⟨"slate", Seconds.zero⟩], Seconds.zero⟩ := by
        decide +kernel
      rw [hJson] at hParsed
      exact Option.some.inj hParsed
    subst hFirst
    rcases List.mem_pair.mp hName with rfl | rfl
    · have hSecond : u = ⟨[], Seconds.zero⟩ := by
        have hJson : Transcript.ofJson (text "") = .ok u := hOther.ofJson_eq rfl
        have hParsed : (Transcript.ofJson (text "")).toOption = some ⟨[], Seconds.zero⟩ := by
          decide +kernel
        rw [hJson] at hParsed
        exact Option.some.inj hParsed
      subst hSecond
      have hPath : Storage.sidecarPath "a.txt" settings.directory =
          Storage.sidecarPath "a.json" settings.directory := by
        decide +kernel
      rw [hPath, hRead] at hOtherRead
      injection hOtherRead with hText
      have hChars := String.ofList_inj.mp hText
      revert hChars
      decide +kernel
    · have hPath : Storage.sidecarPath "a.json" settings.directory = "a.segments.json" := by
        decide +kernel
      rw [hPath] at hRead
      obtain ⟨_, _, content, hThere, hText⟩ := FileTree.read_eq_ok_iff.mp hRead
      have hPlace : FileTree.placeOf ((runOn reply settings ["a.json", "a.segments.json"]).run
            ⟨tree "a.segments.json", []⟩).2.tree "a.segments.json" =
          (tree "a.segments.json").placeOf "a.segments.json" := by
        decide +kernel
      have hWritten : (tree "a.segments.json").at?
            ((tree "a.segments.json").placeOf "a.segments.json") =
          some (.file (Text.Utf8.encode (text ""))) :=
        rfl
      rw [hPlace, hSame, hWritten] at hThere
      injection hThere with hFile
      injection hFile with hContent
      rw [← hContent, Text.Utf8.decode?_encode] at hText
      -- a cut is laid out over lines and the transcript is not
      have hChars := (congrArg String.toList (Option.some.inj hText)).trans String.toList_ofList
      have hSecond := congrArg (fun cs => cs[1]?) hChars
      revert hSecond
      decide +kernel

end Sidecar

end RoughCut
