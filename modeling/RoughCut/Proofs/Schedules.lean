import Mathlib.Algebra.GroupWithZero.Nat
import Mathlib.Tactic.ByContra
import Mathlib.Tactic.SplitIfs
import RoughCut.Batch

/-!
Schedules of the work on many jobs. A schedule lets any task that is near enough
to the front make its next request. Every schedule ends, and the rounds of
`Batch.process` are one of them.
-/

namespace RoughCut

/-- What a job asks of its host. -/
inductive Request where
  | load (key : String)
  | probe (path : String)
  | store (key : String) (cut : Cut)

/-- The key and the cut of a request to store. -/
def Request.stored? : Request → Option (String × Cut)
  | store key cut => some (key, cut)
  | _ => none

variable {σ ε : Type} {host : Host (StateM σ) ε}

/-- The transcript with the length of its footage according to these replies. -/
def Job.measured (job : Job) (reply : String → Option Probe.Reply) (t : Transcript) : Transcript :=
  match job.footageFor t with
  | some path => t.measured (reply path)
  | none => t

/-- The next request of a job. -/
def Job.request? (job : Job) : Progress ε → Option Request
  | .waiting => some (.load job.transcript)
  | .probing _ path => some (.probe path)
  | .storing cut => some (.store job.output cut)
  | .finished _ => none

/-- What a request of a job comes to: how far the work is then, and the state. -/
inductive Job.Answers (host : Host (StateM σ) ε) (job : Job) (s : σ) :
    Progress ε → Progress ε → σ → Prop where
  | load {answer : Except ε Transcript} {s' : σ}
      (hLoad : (host.load job.transcript).run s = (answer, s')) :
      Answers host job s .waiting (job.afterLoad answer) s'
  | probe {t : Transcript} {path : String} {reply : Option Probe.Reply} {s' : σ}
      (hProbe : (host.probe path).run s = (reply, s')) :
      Answers host job s (.probing t path) (.storing (t.measured reply).cut) s'
  | store {cut : Cut} {answer : Except ε Unit} {s' : σ}
      (hStore : (host.store job.output cut).run s = (answer, s')) :
      Answers host job s (.storing cut) (afterStore cut answer) s'
  | rest (result : Except ε Cut) : Answers host job s (.finished result) (.finished result) s

/-- A step is one of four, by how far the work has come and what the host answers. What
holds of these four holds of every step. -/
theorem Job.answers_of_step {job : Job} {p p' : Progress ε} {s s' : σ}
    (h : (job.step host p).run s = (p', s')) : job.Answers host s p p' s' := by
  cases p with
  | waiting =>
      cases h
      exact .load rfl
  | probing t path =>
      cases h
      exact .probe rfl
  | storing cut =>
      cases h
      exact .store rfl
  | finished result =>
      cases h
      exact .rest result

/-- A request brings a job nearer to its end. After loading a job may need no probe, so
a step can save more than one request. -/
theorem Job.left_step {job : Job} {p p' : Progress ε} {s s' : σ}
    (hRequest : job.request? p ≠ none) (hStep : (job.step host p).run s = (p', s')) :
    p'.left < p.left := by
  cases answers_of_step hStep with
  | @load answer _ hLoad =>
      cases answer with
      | error e => simp [afterLoad, Progress.left]
      | ok t =>
          rw [afterLoad]
          cases job.footageFor t <;> simp [Progress.left]
  | probe hProbe => exact Nat.one_lt_two
  | @store cut answer _ hStore => cases answer <;> simp [afterStore, Progress.left]
  | rest result => exact absurd rfl hRequest

namespace Task

/-- The next request of a task. -/
def request? (task : Task ε) : Option Request :=
  task.job.request? task.progress

variable {task task' : Task ε} {s s' : σ}

/-- A task makes no request any more exactly if it is finished. -/
theorem request?_eq_none_iff : task.request? = none ↔ task.progress.isFinished = true := by
  cases task with
  | mk job progress => cases progress <;> simp [request?, Job.request?, Progress.isFinished]

/-- A task stays with its job. -/
theorem job_step (h : (task.step host).run s = (task', s')) : task'.job = task.job := by
  obtain rfl := congrArg Prod.fst h
  rfl

theorem progress_step (h : (task.step host).run s = (task', s')) :
    (task.job.step host task.progress).run s = (task'.progress, s') := by
  obtain rfl := congrArg Prod.fst h
  obtain rfl := congrArg Prod.snd h
  rfl

end Task

namespace Batch

/-- How many tasks are unfinished. -/
def unfinished (tasks : List (Task ε)) : Nat :=
  tasks.countP fun task => !task.progress.isFinished

/-- How many requests are left at most. -/
def left (tasks : List (Task ε)) : Nat :=
  (tasks.map fun task => task.progress.left).sum

/-- One task makes its next request. It may be any of which fewer than `width`
before it are unfinished, in whatever order those have made theirs. -/
inductive Step (host : Host (StateM σ) ε) (width : Nat) :
    σ × List (Task ε) → Request → σ × List (Task ε) → Prop where
  | request {before after : List (Task ε)} {task task' : Task ε} {s s' : σ} {request : Request}
      (hRequest : task.request? = some request) (hWindow : unfinished before < width)
      (hAnswer : (task.step host).run s = (task', s')) :
      Step host width (s, before ++ task :: after) request (s', before ++ task' :: after)

/-- Some requests in a row. -/
inductive Run (host : Host (StateM σ) ε) (width : Nat) :
    σ × List (Task ε) → List Request → σ × List (Task ε) → Prop where
  | start (c : σ × List (Task ε)) : Run host width c [] c
  | step {c d e : σ × List (Task ε)} {trace : List Request} {request : Request}
      (prior : Run host width c trace d) (last : Step host width d request e) :
      Run host width c (trace ++ [request]) e

/-- A schedule of jobs from the state `s` can make the requests of the trace, come
to the state `s'` and end there with these results, no task being left to go on. -/
def Ends (host : Host (StateM σ) ε) (width : Nat) (jobs : List Job) (s : σ)
    (trace : List Request) (s' : σ) (results : List (Except ε Cut)) : Prop :=
  ∃ tasks, Run host width (s, jobs.map Task.new) trace (s', tasks) ∧
    (∀ request d, ¬ Step host width (s', tasks) request d) ∧
    results = tasks.filterMap fun task => task.progress.result?

variable {width : Nat} {c d e : σ × List (Task ε)} {trace more : List Request} {request : Request}

theorem Run.trans (first : Run host width c trace d) (second : Run host width d more e) :
    Run host width c (trace ++ more) e := by
  induction second with
  | start => simpa using first
  | step prior last ih =>
      rw [← List.append_assoc]
      exact .step ih last

/-- A step of one task leaves the jobs of all tasks as they are, and in their order. -/
theorem Step.jobs (h : Step host width c request d) : d.2.map Task.job = c.2.map Task.job := by
  cases h with
  | request hRequest hWindow hAnswer => simp [Task.job_step hAnswer]

/-- One task answers for a step, and the others are as they were. -/
theorem Step.exists_task (h : Step host width c request d) :
    ∃ task ∈ c.2, ∃ task', task.request? = some request ∧
      (task.step host).run c.1 = (task', d.1) ∧ ∀ other ∈ d.2, other = task' ∨ other ∈ c.2 := by
  cases h with
  | @request before after task task' s s' request hRequest hWindow hAnswer =>
      refine ⟨task, by simp, task', hRequest, hAnswer, fun other hOther => ?_⟩
      simp only [List.mem_append, List.mem_cons] at hOther ⊢
      rcases hOther with hBefore | hSame | hAfter
      · exact .inr (.inl hBefore)
      · exact .inl hSame
      · exact .inr (.inr (.inr hAfter))

theorem Run.jobs (h : Run host width c trace d) : d.2.map Task.job = c.2.map Task.job := by
  induction h with
  | start => rfl
  | step prior last ih => exact last.jobs.trans ih

theorem map_job_new (jobs : List Job) : (jobs.map (Task.new (ε := ε))).map Task.job = jobs := by
  simp [Task.new, Function.comp_def]

/-- The tasks of a run are those for the jobs that it was begun with, in their order. -/
theorem Run.jobs_new {jobs : List Job} {s : σ}
    (h : Run host width (s, jobs.map Task.new) trace d) : d.2.map Task.job = jobs :=
  h.jobs.trans (map_job_new jobs)

/-- What holds of all tasks goes on to hold if it comes to hold of the one that is
answered. The others have not been touched. -/
theorem Step.forall_tasks {P : Job → Progress ε → Prop} (h : Step host width c request d)
    (hAll : ∀ task ∈ c.2, P task.job task.progress)
    (hOwn : ∀ task ∈ c.2, ∀ p', (task.job.step host task.progress).run c.1 = (p', d.1) →
      P task.job p') :
    ∀ task ∈ d.2, P task.job task.progress := by
  obtain ⟨task, hTask, task', -, hAnswer, hOthers⟩ := h.exists_task
  intro other hOther
  rcases hOthers other hOther with rfl | hOther
  · rw [Task.job_step hAnswer]
    exact hOwn task hTask _ (Task.progress_step hAnswer)
  · exact hAll other hOther

/-- What every request of the jobs keeps a run keeps: a property of the state, and one of
how far the work on each job is in that state. A request may bring the work on its own job
on, and it has to leave what is known of the work on the others. -/
theorem Run.keeps_beside {I : σ → Prop} {P : σ → Job → Progress ε → Prop}
    (h : Run host width c trace d)
    (hStep : ∀ job ∈ c.2.map Task.job, ∀ p p' s s', I s → P s job p →
      (job.step host p).run s = (p', s') → P s' job p' ∧ I s' ∧
        ∀ other ∈ c.2.map Task.job, ∀ q, P s other q → P s' other q)
    (hState : I c.1) (hTasks : ∀ task ∈ c.2, P c.1 task.job task.progress) :
    I d.1 ∧ ∀ task ∈ d.2, P d.1 task.job task.progress := by
  induction h with
  | start => exact ⟨hState, hTasks⟩
  | @step d e trace request prior last ih =>
      obtain ⟨hState, hTasks⟩ := ih
      have hJobs (task : Task ε) (hTask : task ∈ d.2) : task.job ∈ c.2.map Task.job := by
        rw [← prior.jobs]
        exact List.mem_map_of_mem hTask
      obtain ⟨task, hTask, task', -, hAnswer, -⟩ := last.exists_task
      obtain ⟨-, hKept, hBeside⟩ := hStep _ (hJobs task hTask) _ _ _ _ hState (hTasks task hTask)
        (Task.progress_step hAnswer)
      refine ⟨hKept, last.forall_tasks
        (fun other hOther => hBeside _ (hJobs other hOther) _ (hTasks other hOther))
        fun own hOwn p' hAnswer => ?_⟩
      exact (hStep _ (hJobs own hOwn) _ _ _ _ hState (hTasks own hOwn) hAnswer).1

/-- What is known of the work on a job without the state is left by all other requests. -/
theorem Run.keeps {I : σ → Prop} {P : Job → Progress ε → Prop} (h : Run host width c trace d)
    (hStep : ∀ job ∈ c.2.map Task.job, ∀ p p' s s', I s → P job p →
      (job.step host p).run s = (p', s') → P job p' ∧ I s')
    (hState : I c.1) (hTasks : ∀ task ∈ c.2, P task.job task.progress) :
    I d.1 ∧ ∀ task ∈ d.2, P task.job task.progress := by
  refine h.keeps_beside (P := fun _ => P) (fun job hJob p p' s s' hState hTask hAnswer => ?_)
    hState hTasks
  obtain ⟨hOwn, hKept⟩ := hStep job hJob p p' s s' hState hTask hAnswer
  exact ⟨hOwn, hKept, fun _ _ _ hOther => hOther⟩

/-- Each step uses up a request. So a run cannot go on for ever. -/
theorem Step.left_lt (h : Step host width c request d) : left d.2 < left c.2 := by
  cases h with
  | @request before after task task' s s' request hRequest hWindow hAnswer =>
      have hLess := Job.left_step (by rw [← Task.request?, hRequest]; simp)
        (Task.progress_step hAnswer)
      simp only [left, List.map_append, List.map_cons, List.sum_append, List.sum_cons]
      omega

/-- A schedule ends, since no job makes more than three requests. -/
theorem Run.length_le (h : Run host width c trace d) : trace.length + left d.2 ≤ left c.2 := by
  induction h with
  | start => simp
  | step prior last ih =>
      have hLess := last.left_lt
      rw [List.length_append, List.length_singleton]
      omega

/-- A job makes three requests at most, one to load, one to probe and one to store. -/
theorem left_new (jobs : List Job) : left (ε := ε) (jobs.map Task.new) = 3 * jobs.length := by
  induction jobs with
  | nil => rfl
  | cons job jobs ih =>
      simp only [left, List.map_cons, List.sum_cons, List.length_cons] at ih ⊢
      rw [ih, Task.new, Progress.left]
      omega

theorem exists_request {task : Task ε} (h : ¬ task.progress.isFinished = true) :
    ∃ request, task.request? = some request := by
  rwa [← Option.isSome_iff_exists, Option.isSome_iff_ne_none, Ne, Task.request?_eq_none_iff]

/-- Where an unfinished task is left, the first of them can go on. It is always within
the width, for all tasks before it are finished. -/
theorem exists_step {tasks : List (Task ε)} (hWidth : 0 < width)
    (h : ∃ task ∈ tasks, task.progress.isFinished = false) (s : σ) :
    ∃ request d, Step host width (s, tasks) request d := by
  obtain ⟨task, hTask, hUnfinished⟩ := h
  obtain ⟨first, hFirst⟩ : ∃ first, tasks.find? (fun task => !task.progress.isFinished) =
      some first := by
    rw [← Option.isSome_iff_exists, List.find?_isSome]
    exact ⟨task, hTask, by simp [hUnfinished]⟩
  obtain ⟨hUnfinished, before, after, rfl, hBefore⟩ := List.find?_eq_some_iff_append.mp hFirst
  obtain ⟨request, hRequest⟩ := exists_request (by simpa using hUnfinished)
  have hNone : unfinished before = 0 := List.countP_eq_zero.mpr (by simpa using hBefore)
  exact ⟨request, _, .request hRequest (by omega) rfl⟩

/-- Where no task can go on, all are finished. -/
theorem all_finished {tasks : List (Task ε)} {s : σ} (hWidth : 0 < width)
    (h : ∀ request d, ¬ Step host width (s, tasks) request d) :
    ∀ task ∈ tasks, task.progress.isFinished = true := by
  by_contra hNot
  have hLeft : ∃ task ∈ tasks, task.progress.isFinished = false := by simpa using hNot
  obtain ⟨request, d, hStep⟩ := exists_step hWidth hLeft s
  exact h request d hStep

/-! The rounds of `process`. -/

theorem left_cons_of_finished {task : Task ε} {tasks : List (Task ε)}
    (h : task.progress.isFinished = true) : left (task :: tasks) = left tasks := by
  cases task with
  | mk job progress =>
      cases progress with
      | finished result => simp [left, Progress.left]
      | waiting => cases h
      | probing t path => cases h
      | storing cut => cases h

/-- No requests are left exactly if all tasks are finished. -/
theorem left_eq_zero_iff {tasks : List (Task ε)} :
    left tasks = 0 ↔ ∀ task ∈ tasks, task.progress.isFinished = true := by
  have hTask (task : Task ε) : task.progress.left = 0 ↔ task.progress.isFinished = true := by
    cases task.progress <;> simp [Progress.left, Progress.isFinished]
  induction tasks with
  | nil => simp [left]
  | cons task tasks ih =>
      have hCons : left (task :: tasks) = task.progress.left + left tasks := by simp [left]
      rw [hCons, Nat.add_eq_zero_iff, List.forall_mem_cons]
      exact and_congr (hTask task) ih

theorem unfinished_concat_le (before : List (Task ε)) (task : Task ε) :
    unfinished (before ++ [task]) ≤ unfinished before + 1 := by
  rw [unfinished, List.countP_append]
  exact Nat.add_le_add_left (List.countP_le_length) _

theorem unfinished_concat_of_finished (before : List (Task ε)) {task : Task ε}
    (h : task.progress.isFinished = true) : unfinished (before ++ [task]) = unfinished before := by
  simp [unfinished, h]

/-- A round is a run, whatever tasks stand in front of its own, and with room for one
it makes a request as long as there is one to make. -/
theorem run_round {room : Nat} {before tasks tasks' : List (Task ε)} {s s' : σ}
    (hRoom : unfinished before + room ≤ width)
    (h : (round host room tasks).run s = (tasks', s')) :
    ∃ trace, Run host width (s, before ++ tasks) trace (s', before ++ tasks') ∧
      (0 < room → left tasks ≠ 0 → trace ≠ []) := by
  induction tasks generalizing room before s tasks' with
  | nil => cases room <;> cases h <;> exact ⟨[], .start _, fun _ hLeft => absurd rfl hLeft⟩
  | cons task tasks ih =>
      cases room with
      | zero =>
          cases h
          exact ⟨[], .start _, fun hRoom => absurd hRoom (Nat.lt_irrefl 0)⟩
      | succ room =>
          rw [round] at h
          split_ifs at h with hFinished
          · -- a finished task takes no part
            have h : (task :: ((round host (room + 1) tasks).run s).1,
                ((round host (room + 1) tasks).run s).2) = (tasks', s') := h
            cases hRest : (round host (room + 1) tasks).run s with
            | mk rest s₁ =>
                rw [hRest] at h
                cases h
                have hFront : unfinished (before ++ [task]) + (room + 1) ≤ width := by
                  rwa [unfinished_concat_of_finished before hFinished]
                obtain ⟨trace, hRun, hMakes⟩ := ih hFront hRest
                refine ⟨trace, by simpa using hRun, ?_⟩
                rwa [left_cons_of_finished hFinished]
          · have h : (((task.step host).run s).1 ::
                ((round host room tasks).run ((task.step host).run s).2).1,
                ((round host room tasks).run ((task.step host).run s).2).2) = (tasks', s') := h
            cases hTask : (task.step host).run s with
            | mk task' s₁ =>
                cases hRest : (round host room tasks).run s₁ with
                | mk rest s₂ =>
                    rw [hTask, hRest] at h
                    cases h
                    obtain ⟨request, hRequest⟩ := exists_request hFinished
                    have hStep : Step host width (s, before ++ task :: tasks) request
                        (s₁, before ++ task' :: tasks) := .request hRequest (by omega) hTask
                    have hFront : unfinished (before ++ [task']) + room ≤ width := by
                      have hOne := unfinished_concat_le before task'
                      omega
                    obtain ⟨trace, hRun, _⟩ := ih hFront hRest
                    refine ⟨_, (Run.step (.start _) hStep).trans (by simpa using hRun), ?_⟩
                    simp

/-- Rounds are a run, and enough of them leave nothing to do. -/
theorem run_rounds {tasks tasks' : List (Task ε)} {s s' : σ} {n : Nat} (hWidth : 0 < width)
    (h : (rounds host width n tasks).run s = (tasks', s')) :
    ∃ trace, Run host width (s, tasks) trace (s', tasks') ∧ left tasks' ≤ left tasks - n := by
  induction n generalizing tasks s with
  | zero =>
      cases h
      exact ⟨[], .start _, Nat.le_refl _⟩
  | succ n ih =>
      have h : (rounds host width n ((round host width tasks).run s).1).run
          ((round host width tasks).run s).2 = (tasks', s') := h
      cases hRound : (round host width tasks).run s with
      | mk between s₁ =>
          rw [hRound] at h
          dsimp only at h
          have hRoom : unfinished (ε := ε) [] + width ≤ width := Nat.le_of_eq (Nat.zero_add width)
          obtain ⟨first, hFirst, hMakes⟩ := run_round hRoom hRound
          obtain ⟨more, hMore, hLess⟩ := ih h
          have hBetween : first.length + left between ≤ left tasks := hFirst.length_le
          refine ⟨first ++ more, hFirst.trans hMore, ?_⟩
          by_cases hNone : left tasks = 0
          · omega
          · have hLength := List.length_pos_iff.mpr (hMakes hWidth hNone)
            omega

/-- The rounds of `process` are a schedule. -/
theorem ends_process (host : Host (StateM σ) ε) (jobs : List Job) (n : Nat) (s : σ) :
    ∃ trace, Ends host (Nat.max 1 n) jobs s trace ((process host jobs n).run s).2
      ((process host jobs n).run s).1 := by
  have hWidth : 0 < Nat.max 1 n := Nat.le_max_left 1 n
  cases hRounds : (rounds host (Nat.max 1 n) (3 * jobs.length) (jobs.map Task.new)).run s with
  | mk tasks s' =>
      have hProcess : (process host jobs n).run s =
          (tasks.filterMap fun task => task.progress.result?, s') := by
        have hUnfold : (process host jobs n).run s =
            (((rounds host (Nat.max 1 n) (3 * jobs.length) (jobs.map Task.new)).run s).1.filterMap
              fun task => task.progress.result?,
            ((rounds host (Nat.max 1 n) (3 * jobs.length) (jobs.map Task.new)).run s).2) := rfl
        rw [hUnfold, hRounds]
      obtain ⟨trace, hRun, hLeft⟩ := run_rounds hWidth hRounds
      rw [left_new, Nat.sub_self, Nat.le_zero, left_eq_zero_iff] at hLeft
      rw [hProcess]
      refine ⟨trace, tasks, hRun, ?_, rfl⟩
      intro request d hStep
      have hLess := hStep.left_lt
      rw [left_eq_zero_iff.mpr hLeft] at hLess
      exact absurd hLess (Nat.not_lt_zero _)

end Batch

end RoughCut
