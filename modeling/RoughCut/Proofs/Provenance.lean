import RoughCut.Proofs.Schedules
import RoughCut.Storage

/-!
Where what a schedule comes to is from. A cut is made of what the host had for the job and
replied to it in states that the schedule has passed, and so is the failure of a job one
that the host answered with in such a state.
-/

namespace RoughCut

variable {σ : Type} {host : Host (StateM σ) StorageError} {job : Job}
  {p p' : Progress StorageError} {seen seen' : σ → Prop} {s s' : σ} {cut : Cut}
  {result : Except StorageError Cut}

namespace Job

/-- The cut is that of a transcript that the host has for the job in one of these states,
with what it replies for the footage in another. -/
def Made (host : Host (StateM σ) StorageError) (seen : σ → Prop) (job : Job) (cut : Cut) : Prop :=
  ∃ t loading probing, seen loading ∧ seen probing ∧
    ((host.load job.transcript).run loading).1 = .ok t ∧
    cut = (job.measured (fun path => ((host.probe path).run probing).1) t).cut

/-- How the work on a job can have come to a result, each request having been made in one
of these states. -/
inductive Came (host : Host (StateM σ) StorageError) (seen : σ → Prop) (job : Job) :
    Except StorageError Cut → Prop where
  | notLoaded {s : σ} {e : StorageError} (hSeen : seen s)
      (hLoad : ((host.load job.transcript).run s).1 = .error e) : Came host seen job (.error e)
  | notStored {s : σ} {cut : Cut} {e : StorageError} (hMade : Made host seen job cut)
      (hSeen : seen s) (hStore : ((host.store job.output cut).run s).1 = .error e) :
      Came host seen job (.error e)
  | stored {s : σ} {cut : Cut} (hMade : Made host seen job cut) (hSeen : seen s)
      (hStore : ((host.store job.output cut).run s).1 = .ok ()) : Came host seen job (.ok cut)

/-- What was made of one of some states of the host was made of one of more states. -/
theorem Made.mono (h : job.Made host seen cut) (hMore : ∀ s, seen s → seen' s) :
    job.Made host seen' cut := by
  obtain ⟨t, loading, probing, hLoading, hProbing, hMade⟩ := h
  exact ⟨t, loading, probing, hMore loading hLoading, hMore probing hProbing, hMade⟩

theorem Came.mono (h : job.Came host seen result) (hMore : ∀ s, seen s → seen' s) :
    job.Came host seen' result := by
  cases h with
  | notLoaded hSeen hLoad => exact .notLoaded (hMore _ hSeen) hLoad
  | notStored hMade hSeen hStore => exact .notStored (hMade.mono hMore) (hMore _ hSeen) hStore
  | stored hMade hSeen hStore => exact .stored (hMade.mono hMore) (hMore _ hSeen) hStore

end Job

/-- How far the work on a job can have come, each request having been made in one of
these states. -/
def Progress.Comes (host : Host (StateM σ) StorageError) (seen : σ → Prop) (job : Job) :
    Progress StorageError → Prop
  | .waiting => True
  | .probing t path => job.footageFor t = some path ∧
      ∃ s, seen s ∧ ((host.load job.transcript).run s).1 = .ok t
  | .storing cut => job.Made host seen cut
  | .finished result => job.Came host seen result

theorem Progress.Comes.mono (h : p.Comes host seen job) (hMore : ∀ s, seen s → seen' s) :
    p.Comes host seen' job := by
  cases p with
  | waiting => trivial
  | probing t path =>
      obtain ⟨hFootage, s, hSeen, hLoad⟩ := h
      exact ⟨hFootage, s, hMore s hSeen, hLoad⟩
  | storing cut => exact Job.Made.mono h hMore
  | finished result => exact Job.Came.mono h hMore

/-- A step keeps what is known of where a result comes from, if the state in which it is
made counts among those that were seen. -/
theorem Job.comes_step (hSeen : seen s) (h : p.Comes host seen job)
    (hStep : (job.step host p).run s = (p', s')) : p'.Comes host seen job := by
  cases answers_of_step hStep with
  | @load answer _ hLoad =>
      have hLoad := congrArg Prod.fst hLoad
      cases answer with
      | error e => exact .notLoaded hSeen hLoad
      | ok t =>
          rw [afterLoad]
          cases hFootage : job.footageFor t with
          | some path => exact ⟨hFootage, s, hSeen, hLoad⟩
          | none => exact ⟨t, s, s, hSeen, hSeen, hLoad, by rw [measured, hFootage]⟩
  | @probe t path reply _ hProbe =>
      obtain ⟨hFootage, loading, hLoading, hLoad⟩ := h
      have hReply : ((host.probe path).run s).1 = reply := congrArg Prod.fst hProbe
      exact ⟨t, loading, s, hLoading, hSeen, hLoad, by rw [measured, hFootage, ← hReply]⟩
  | @store cut answer _ hStore =>
      have hStore := congrArg Prod.fst hStore
      cases answer with
      | error e => exact .notStored h hSeen hStore
      | ok _ => exact .stored h hSeen hStore
  | rest result => exact h

/-- Nothing but work that is storing asks to store. -/
theorem Job.storing_of_request? {key : String} (h : job.request? p = some (.store key cut)) :
    p = .storing cut ∧ key = job.output := by
  cases p with
  | storing stored =>
      cases h
      exact ⟨rfl, rfl⟩
  | _ => cases h

namespace Batch

variable {width : Nat} {c d e : σ × List (Task StorageError)} {trace : List Request}
  {request : Request}

/-- A run with this trace from `c` to `d` passes the state. -/
def Passes (host : Host (StateM σ) StorageError) (width : Nat) (c : σ × List (Task StorageError))
    (trace : List Request) (d : σ × List (Task StorageError)) (s : σ) : Prop :=
  ∃ earlier later tasks, trace = earlier ++ later ∧
    Run host width c earlier (s, tasks) ∧ Run host width (s, tasks) later d

/-- What a run has passed it goes on to have passed. -/
theorem Passes.step (h : Passes host width c trace d s) (last : Step host width d request e) :
    Passes host width c (trace ++ [request]) e s := by
  obtain ⟨earlier, later, tasks, rfl, hEarlier, hLater⟩ := h
  exact ⟨earlier, later ++ [request], tasks, by simp, hEarlier, .step hLater last⟩

theorem passes_last (prior : Run host width c trace d) (last : Step host width d request e) :
    Passes host width c (trace ++ [request]) e d.1 :=
  ⟨trace, [request], d.2, rfl, prior, .step (.start d) last⟩

/-- In a run all work comes as far as it does by requests in the states that are passed.
So what a job has made can be traced to what the host once had. -/
theorem comes_run {jobs : List Job} (hRun : Run host width (s, jobs.map Task.new) trace d) :
    ∀ task ∈ d.2, task.progress.Comes host
      (Passes host width (s, jobs.map Task.new) trace d) task.job := by
  induction hRun with
  | start => exact List.forall_mem_map.mpr fun job _ => trivial
  | @step d e trace request prior last ih =>
      have hPrior (task : Task StorageError) (hTask : task ∈ d.2) : task.progress.Comes host
          (Passes host width (s, jobs.map Task.new) (trace ++ [request]) e) task.job :=
        (ih task hTask).mono fun s hPasses => hPasses.step last
      exact last.forall_tasks hPrior fun task hTask p' hAnswer =>
        Job.comes_step (passes_last prior last) (hPrior task hTask) hAnswer

/-- What is stored in a run goes where one of the jobs puts its cut, and is made in states
that are passed. -/
theorem made_of_run {jobs : List Job} (hRun : Run host width (s, jobs.map Task.new) trace d)
    {key : String} (hStored : .store key cut ∈ trace) :
    ∃ job ∈ jobs, key = job.output ∧
      job.Made host (Passes host width (s, jobs.map Task.new) trace d) cut := by
  induction hRun with
  | start => cases hStored
  | @step d e trace request prior last ih =>
      rcases List.mem_append.mp hStored with hPrior | hLast
      · obtain ⟨job, hJob, hKey, hMade⟩ := ih hPrior
        exact ⟨job, hJob, hKey, hMade.mono fun s hPasses => hPasses.step last⟩
      · obtain rfl := List.mem_singleton.mp hLast
        obtain ⟨task, hTask, -, hRequest, -⟩ := last.exists_task
        obtain ⟨hStoring, hKey⟩ := Job.storing_of_request? hRequest
        have hMade := comes_run prior task hTask
        rw [hStoring] at hMade
        refine ⟨task.job, ?_, hKey, Job.Made.mono hMade fun s hPasses => hPasses.step last⟩
        rw [← prior.jobs_new]
        exact List.mem_map_of_mem hTask

end Batch

end RoughCut
