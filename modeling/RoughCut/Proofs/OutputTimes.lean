import RoughCut.Proofs.JobRequests
import RoughCut.Proofs.Provenance
import RoughCut.Proofs.SidecarBatches
import RoughCut.Proofs.TimeSources

/-!
The times that leave the program. Whatever text is cut, whatever body is posted and
whatever a job loads and probes, the cut that comes of it has finite times from where
they are known, and so has every cut that is handed on to be stored.
-/

namespace RoughCut

open Json

variable {σ : Type} {host : Host (StateM σ) StorageError} {job : Job} {seen : σ → Prop} {s s' : σ}
  {t : Transcript} {cut : Cut}

/-- Transcripts come to the host from files. -/
def Host.ReadsFiles (host : Host (StateM σ) StorageError) : Prop :=
  ∀ key s, ∃ tree, ((host.load key).run s).1 = Storage.load tree key

/-- A disk is a host that takes transcripts from what is in its files. -/
theorem Disk.readsFiles (reply : String → Probe.Reply) : (Disk.host reply).ReadsFiles :=
  fun _ disk => ⟨disk.tree, rfl⟩

/-- A transcript that was loaded has finite times only, wherever it was stored. -/
theorem Storage.finite_of_load {tree : FileTree} {key : String} (h : load tree key = .ok t) :
    t.HasFiniteTimes := by
  obtain ⟨text, -, hJson⟩ := of_load h
  exact Transcript.finite_of_ofJson hJson

namespace Job

/-- The length that the footage of the job is replied to have, if it is asked for. -/
def probed (job : Job) (reply : String → Option Probe.Reply) (t : Transcript) : Option Seconds :=
  ((job.footageFor t).bind reply).bind fun r => r.duration.toOption

/-- The times of a cut are those of its transcript and its footage, where the footage
was probed or not. -/
theorem timedBy_measured (h : t.HasFiniteTimes) (reply : String → Option Probe.Reply) :
    (job.measured reply t).cut.TimedBy t (job.probed reply t) := by
  unfold measured probed
  cases job.footageFor t with
  | some path => exact Transcript.timedBy_measured h (reply path)
  | none => exact Transcript.timedBy_cut h

/-- The cut has the times of the transcript that the host has for the job in one state,
and of the length that it replies for the footage in another. -/
def Times (host : Host (StateM σ) StorageError) (job : Job) (loading probing : σ) (cut : Cut) :
    Prop :=
  ∃ t, ((host.load job.transcript).run loading).1 = .ok t ∧
    cut.TimedBy t (job.probed (fun path => ((host.probe path).run probing).1) t)

/-- The times of a cut are those of the transcript that was loaded and of the length
that was probed, even if the host has changed in between. -/
theorem times_measured {loading : σ} (hFiles : host.ReadsFiles)
    (hLoad : ((host.load job.transcript).run loading).1 = .ok t) (probing : σ) :
    job.Times host loading probing
      (job.measured (fun path => ((host.probe path).run probing).1) t).cut := by
  obtain ⟨tree, hTree⟩ := hFiles job.transcript loading
  exact ⟨t, hLoad, timedBy_measured (Storage.finite_of_load (hTree.symm.trans hLoad)) _⟩

/-- Work in a row that comes to a cut has loaded the transcript first of all and probed
right after. -/
theorem cut_of_process (h : (job.process host).run s = (.ok cut, s')) :
    ∃ t s₁, (host.load job.transcript).run s = (.ok t, s₁) ∧
      cut = (job.measured (fun path => ((host.probe path).run s₁).1) t).cut := by
  cases worked_of_process h with
  | @stored t u s₁ s₂ _ hLoad hMeasure hStore => exact ⟨t, s₁, hLoad, by rw [← run_measure, hMeasure]⟩

/-- The times of a cut that comes out of the work on a job come from what was loaded and
probed in that work. -/
theorem times_process (hFiles : host.ReadsFiles) (h : (job.process host).run s = (.ok cut, s')) :
    job.Times host s ((host.load job.transcript).run s).2 cut := by
  obtain ⟨t, s₁, hLoad, rfl⟩ := cut_of_process h
  rw [hLoad]
  exact times_measured hFiles (congrArg Prod.fst hLoad) s₁

/-- The cut has the times of what the host has and replies in some of these states. -/
def TimesIn (host : Host (StateM σ) StorageError) (seen : σ → Prop) (job : Job) (cut : Cut) :
    Prop :=
  ∃ loading probing, seen loading ∧ seen probing ∧ job.Times host loading probing cut

/-- What is made of a finite transcript is timed. -/
theorem Made.timesIn (hFiles : host.ReadsFiles) (h : job.Made host seen cut) :
    job.TimesIn host seen cut := by
  obtain ⟨t, loading, probing, hLoading, hProbing, hLoad, rfl⟩ := h
  exact ⟨loading, probing, hLoading, hProbing, times_measured hFiles hLoad probing⟩

end Job

theorem Request.eq_store_of_stored? {request : Request} {key : String}
    (h : request.stored? = some (key, cut)) : request = .store key cut := by
  cases request with
  | store key cut =>
      cases h
      rfl
  | _ => cases h

namespace Batch

variable {width : Nat} {c d : σ × List (Task StorageError)} {trace : List Request}
  {request : Request}

/-- A cut that is to be stored goes where one of the jobs puts it, and is timed. -/
def StoresTimed (host : Host (StateM σ) StorageError) (seen : σ → Prop) (jobs : List Job)
    (request : Request) : Prop :=
  ∀ key cut, request.stored? = some (key, cut) →
    ∃ job ∈ jobs, key = job.output ∧ job.TimesIn host seen cut

/-- All that a schedule of jobs stores is timed. Its times come from transcripts that
the host had in states which the run has passed. -/
theorem storesTimed_of_run {jobs : List Job}
    (hRun : Run host width (s, jobs.map Task.new) trace d) (hFiles : host.ReadsFiles) :
    ∀ request ∈ trace,
      StoresTimed host (Passes host width (s, jobs.map Task.new) trace d) jobs request := by
  intro request hMem key cut hStored
  rw [Request.eq_store_of_stored? hStored] at hMem
  obtain ⟨job, hJob, hKey, hMade⟩ := made_of_run hRun hMem
  exact ⟨job, hJob, hKey, hMade.timesIn hFiles⟩

end Batch

/-! Files. -/

/-- Storing a cut writes its text and nothing else. -/
theorem Storage.content_of_store {tree tree' : FileTree} {key : String}
    {result : Except StorageError Unit} (h : store tree key cut = (result, tree')) {place : Place}
    {content : List UInt8} (hFile : tree'.at? place = some (.file content)) :
    tree.at? place = some (.file content) ∨ content = Text.Utf8.encode cut.prettyJson := by
  rcases store_cases h with ⟨-, hMakes⟩ | ⟨-, -, made, -, hMakes, hWrite⟩
  · exact Or.inl (hMakes.file_iff.mp hFile)
  · obtain ⟨hGrows, -, -, hThere⟩ := FileTree.of_write hWrite
    rcases hGrows.fresh place content hFile with hMade | hPlace
    · exact Or.inl (hMakes.file_iff.mp hMade)
    · obtain rfl := List.mem_singleton.mp hPlace
      rw [← hGrows.placeOf_eq, hThere] at hFile
      cases hFile
      exact Or.inr rfl

namespace Disk

variable {reply : String → Probe.Reply} {width : Nat} {c d : Disk × List (Task StorageError)}
  {trace : List Request} {request : Request} {place : Place} {content : List UInt8}

/-- The text of a cut that is asked to be stored. -/
def IsStored (request : Request) (content : List UInt8) : Prop :=
  ∃ key cut, request.stored? = some (key, cut) ∧ content = Text.Utf8.encode cut.prettyJson

/-- A step leaves each file as it was, or it is the step that stores what is in the file
then. -/
theorem content_of_step (h : Batch.Step (Disk.host reply) width c request d)
    (hFile : d.1.tree.at? place = some (.file content)) :
    c.1.tree.at? place = some (.file content) ∨ IsStored request content := by
  obtain ⟨⟨job, p⟩, -, ⟨job', p'⟩, hRequest, hAnswer, -⟩ := h.exists_task
  obtain ⟨disk', tasks'⟩ := d
  cases answers_of_step (Task.progress_step hAnswer) with
  | load => exact Or.inl hFile
  | probe t path => exact Or.inl hFile
  | @store cut result tree hStore =>
      obtain rfl : Request.store job.output cut = request := Option.some.inj hRequest
      refine (Storage.content_of_store hStore hFile).imp_right fun hText => ?_
      exact ⟨_, _, rfl, hText⟩
  | rest result => cases hRequest

/-- What is in a file after a run was in it before, or has been stored by a request of
the run. -/
theorem content_of_run (h : Batch.Run (Disk.host reply) width c trace d)
    (hFile : d.1.tree.at? place = some (.file content)) :
    c.1.tree.at? place = some (.file content) ∨ ∃ request ∈ trace, IsStored request content := by
  induction h with
  | start => exact Or.inl hFile
  | step prior last ih =>
      rcases content_of_step last hFile with hBefore | hStored
      · refine (ih hBefore).imp_right ?_
        rintro ⟨request, hMem, hStored⟩
        exact ⟨request, List.mem_append_left _ hMem, hStored⟩
      · exact Or.inr ⟨_, List.mem_append_right _ (List.mem_singleton_self _), hStored⟩

/-- A file that a schedule of jobs leaves was there before, or it is the text of a cut
with the times of one of the jobs. -/
theorem timed_content_of_run {jobs : List Job} {disk : Disk}
    (h : Batch.Run (Disk.host reply) width (disk, jobs.map Task.new) trace d)
    (hFile : d.1.tree.at? place = some (.file content)) :
    disk.tree.at? place = some (.file content) ∨ ∃ job ∈ jobs, ∃ cut,
      job.TimesIn (Disk.host reply)
        (Batch.Passes (Disk.host reply) width (disk, jobs.map Task.new) trace d) cut ∧
      content = Text.Utf8.encode cut.prettyJson := by
  refine (content_of_run h hFile).imp_right ?_
  rintro ⟨request, hMem, key, cut, hStored, hContent⟩
  obtain ⟨job, hJob, -, hTimes⟩ :=
    Batch.storesTimed_of_run h (Disk.readsFiles reply) request hMem key cut hStored
  exact ⟨job, hJob, cut, hTimes, hContent⟩

end Disk

/-! Answers. -/

namespace Web

variable {maxTokens : Nat} {request : Request}

/-- What is answered well where the segments are is a cut. -/
theorem exists_cut_of_status (hResource : Resource.ofTarget? request.target = some .segments)
    (h : (respond maxTokens request).status = 200) :
    ∃ t, Transcript.shape.readFront request.body = .ok t ∧
      respond maxTokens request = .json t.cut.compactJson := by
  simp only [respond, hResource, cutResponse] at h ⊢
  split_ifs at h ⊢
  swap
  · cases h
  cases hRead : readRequest maxTokens request with
  | error refusal =>
      rw [hRead] at h
      exact absurd h refusal.status_ne
  | ok t =>
      rw [readRequest] at hRead
      split_ifs at hRead
      exact ⟨t, readFront_of_readBody hRead, rfl⟩

end Web

/-- No output has a time that is not finite. The times of a cut are those of tokens, the
length of the transcript, the length that was probed, or zero, whether the cut is of a
text, of a posted body, or made for a job, by itself or among others. A cut is answered
and stored with such times only, and all files that come of jobs are cuts with them. -/
theorem output_times :
    (∀ text t, Transcript.ofJson text = .ok t → t.cut.TimedBy t none) ∧
    (∀ body t, Transcript.shape.readFront body = .ok t → t.cut.TimedBy t none) ∧
    (∀ maxTokens (request : Web.Request),
      Web.Resource.ofTarget? request.target = some .segments →
      (Web.respond maxTokens request).status = 200 →
        ∃ t, Transcript.shape.readFront request.body = .ok t ∧
          Web.respond maxTokens request = .json t.cut.compactJson ∧ t.cut.TimedBy t none) ∧
    (∀ {σ : Type} (host : Host (StateM σ) StorageError), host.ReadsFiles →
      (∀ (job : Job) s cut s', (job.process host).run s = (.ok cut, s') →
        job.Times host s ((host.load job.transcript).run s).2 cut) ∧
      ∀ width (jobs : List Job) s trace d, Batch.Run host width (s, jobs.map Task.new) trace d →
        ∀ request ∈ trace, Batch.StoresTimed host
          (Batch.Passes host width (s, jobs.map Task.new) trace d) jobs request) ∧
    ∀ reply width (jobs : List Job) disk trace d,
      Batch.Run (Disk.host reply) width (disk, jobs.map Task.new) trace d →
      ∀ place content, d.1.tree.at? place = some (.file content) →
        disk.tree.at? place = some (.file content) ∨ ∃ job ∈ jobs, ∃ cut,
          job.TimesIn (Disk.host reply)
            (Batch.Passes (Disk.host reply) width (disk, jobs.map Task.new) trace d) cut ∧
          content = Text.Utf8.encode cut.prettyJson := by
  refine ⟨fun text t hJson => Transcript.timedBy_cut (Transcript.finite_of_ofJson hJson),
    fun body t hRead => Transcript.timedBy_cut (Transcript.finite_of_readFront hRead),
    fun maxTokens request hResource hStatus => ?_, fun host hFiles => ⟨?_, ?_⟩, ?_⟩
  · obtain ⟨t, hRead, hRespond⟩ := Web.exists_cut_of_status hResource hStatus
    exact ⟨t, hRead, hRespond, Transcript.timedBy_cut (Transcript.finite_of_readFront hRead)⟩
  · exact fun job s cut s' hProcess => Job.times_process hFiles hProcess
  · exact fun width jobs s trace d hRun => Batch.storesTimed_of_run hRun hFiles
  · exact fun reply width jobs disk trace d hRun place content hFile =>
      Disk.timed_content_of_run hRun hFile

/-- A transcript without a length is cut from a posted body, which lasts until its last
token, and for a job with footage, which lasts as long as the probe tells. -/
theorem output_times_probed :
    let text := "\x7b\"tokens\":[[\"slate\",1],[\"mark\",1],[\"done\",2]]\x7d"
    let t : Transcript :=
      ⟨[⟨"slate", Seconds.ofInt 1⟩, ⟨"mark", Seconds.ofInt 1⟩, ⟨"done", Seconds.ofInt 2⟩],
        Seconds.zero⟩
    let probed : Seconds := ⟨0x4023000000000000⟩
    let made : Cut := (Transcript.mk t.tokens probed).cut
    let request : Web.Request :=
      ⟨"POST", "/segments", some "application/json", Text.Utf8.encode text⟩
    let host : Host (StateM Disk) StorageError :=
      Disk.host fun _ => .ran true (Text.Utf8.encode "9.5") []
    let disk : Disk := ⟨⟨[(["a.json"], .file (Text.Utf8.encode text))], []⟩, []⟩
    let job : Job := ⟨"a.json", some "a.mov", "a.segments.json"⟩
    Transcript.ofJson text = .ok t ∧ t.cut.TimedBy t none ∧
      Web.respond 3 request = .json t.cut.compactJson ∧
      (∃ disk', (job.process host).run disk = (.ok made, disk')) ∧
      made.segments = [⟨1, Seconds.ofInt 1, probed, none, none, "mark", Tags.empty⟩] ∧
      job.Times host disk ((host.load job.transcript).run disk).2 made ∧
      ∃ trace d content, Batch.Run host 1 (disk, [job].map Task.new) trace d ∧
        d.1.tree.at? ["a.segments.json"] = some (.file content) ∧
        (∀ request ∈ trace, Batch.StoresTimed host
          (Batch.Passes host 1 (disk, [job].map Task.new) trace d) [job] request) ∧
        ∃ cut, job.TimesIn host (Batch.Passes host 1 (disk, [job].map Task.new) trace d) cut ∧
          content = Text.Utf8.encode cut.prettyJson := by
  intro text t probed made request host disk job
  have hFile : Transcript.ofJson text = .ok t := Sidecar.ok_of_toOption (by decide +kernel)
  have hBody : Transcript.shape.readFront request.body = .ok t :=
    Sidecar.ok_of_toOption (by decide +kernel)
  have hStatus : (Web.respond 3 request).status = 200 := by decide +kernel
  obtain ⟨hText, hRead, hPosted, hJobs, hFiles⟩ := output_times
  have hRespond : Web.respond 3 request = .json t.cut.compactJson := by
    obtain ⟨u, hSame, hRespond, -⟩ := hPosted 3 request (by decide +kernel) hStatus
    rw [hBody] at hSame
    cases hSame
    exact hRespond
  have hLoad : Storage.load disk.tree job.transcript = .ok t :=
    Sidecar.ok_of_toOption (by decide +kernel)
  have hLength : (Probe.Reply.ran true (Text.Utf8.encode "9.5") []).duration.toOption =
      some probed := by
    decide +kernel
  have hProcess : ∃ disk', (job.process host).run disk = (.ok made, disk') := by
    have hDone : ((job.process host).run disk).1.toOption.isSome = true := by decide +kernel
    generalize hRun : (job.process host).run disk = ended at hDone ⊢
    obtain ⟨result, disk'⟩ := ended
    obtain ⟨cut, hCut⟩ := Option.isSome_iff_exists.mp hDone
    obtain rfl := Sidecar.ok_of_toOption hCut
    obtain ⟨u, loaded, hOwn, rfl⟩ := Job.cut_of_process hRun
    obtain rfl : t = u := by
      have hSame : Storage.load disk.tree job.transcript = .ok u := congrArg Prod.fst hOwn
      rw [hLoad] at hSame
      exact Except.ok.inj hSame
    have hFootage : job.footageFor t = some "a.mov" := by decide +kernel
    have hMade : job.measured (fun path => ((host.probe path).run loaded).1) t =
        ⟨t.tokens, probed⟩ := by
      rw [Job.measured, hFootage]
      change Transcript.measured t (some (.ran true (Text.Utf8.encode "9.5") [])) = _
      rw [Transcript.measured, Option.bind_some, hLength, Option.getD_some]
    exact ⟨disk', by rw [hMade]⟩
  have hSegments :
      made.segments = [⟨1, Seconds.ofInt 1, probed, none, none, "mark", Tags.empty⟩] := by
    let mark : Command :=
      ⟨.standalone, Seconds.ofInt 1, Seconds.ofInt 2, .mark, none, ""⟩
    have hCommands : Cut.commands t.tokens = [mark] := by decide +kernel
    have hOrder : Command.Ordered [mark] := List.pairwise_singleton _ _
    rw [Transcript.segments_cut, Timeline.ofCommands, hCommands, hOrder.inOrder_eq]
    decide +kernel
  obtain ⟨hAlone, hTogether⟩ := hJobs host (Disk.readsFiles _)
  obtain ⟨disk', hDone⟩ := hProcess
  have hTimes := hAlone job disk made disk' hDone
  obtain ⟨trace, tasks, hRun, -, -⟩ := Batch.ends_process host [job] 1 disk
  have hThere : ∃ content, ((Batch.process host [job] 1).run disk).2.tree.at? ["a.segments.json"] =
      some (.file content) := by
    have hNone : ((Batch.process host [job] 1).run disk).2.tree.at? ["a.segments.json"] ≠ none ∧
        ((Batch.process host [job] 1).run disk).2.tree.at? ["a.segments.json"] ≠
          some .directory := by
      decide +kernel
    revert hNone
    generalize FileTree.at? _ _ = entry
    rintro ⟨hSome, hFile⟩
    cases entry with
    | none => exact absurd rfl hSome
    | some entry =>
        cases entry with
        | directory => exact absurd rfl hFile
        | file content => exact ⟨content, rfl⟩
  generalize ((Batch.process host [job] 1).run disk).2 = last at hRun hThere
  obtain ⟨content, hThere⟩ := hThere
  have hStored := hTogether 1 [job] disk trace (last, tasks) hRun
  have hBefore : disk.tree.at? ["a.segments.json"] = none := by decide +kernel
  have hTimed := hFiles _ 1 [job] disk trace (last, tasks) hRun ["a.segments.json"] content hThere
  rw [hBefore] at hTimed
  obtain ⟨other, hMem, cut, hTimesIn, hContent⟩ := hTimed.resolve_left (by simp)
  obtain rfl := List.mem_singleton.mp hMem
  exact ⟨hFile, hText text t hFile, hRespond, ⟨disk', hDone⟩, hSegments, hTimes, trace,
    (last, tasks), content, hRun, hThere, hStored, cut, hTimesIn, hContent⟩

end RoughCut
