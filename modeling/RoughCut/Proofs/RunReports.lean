import RoughCut.Proofs.RepeatedRuns

/-!
What a run says and how it ends. Each transcript that is given comes to a cut or to a
failure of its own, whatever becomes of the others, and the run tells of it in one block
of lines, in the order in which the transcripts are given. The status sums the blocks up:
it tells of a failure or else, in a strict run, of errors in a cut.
-/

namespace RoughCut

/-! What is reported does not depend on where the footage ends. -/

/-- How long the footage is makes no difference to what is reported. It only tells where
the last segment ends. -/
theorem Cut.report_ofTokens (tokens : List Token) (footage other : Seconds) :
    (ofTokens tokens footage).report = (ofTokens tokens other).report := by
  have hErrors :
      (ofTokens tokens footage).report.errors = (ofTokens tokens other).report.errors := by
    rw [errors_ofTokens, errors_ofTokens]
  have hWarnings :
      (ofTokens tokens footage).report.warnings = (ofTokens tokens other).report.warnings := by
    rw [warnings_ofTokens, warnings_ofTokens]
  exact congrArg₂ Report.mk hErrors hWarnings

/-- Whether and how the footage was probed makes no difference to what is reported. -/
theorem Job.report_measured (job : Job) (reply : String → Option Probe.Reply) (t : Transcript) :
    (job.measured reply t).cut.report = t.cut.report := by
  unfold measured
  cases job.footageFor t with
  | none => rfl
  | some path =>
      simp only [Transcript.cut_eq]
      exact Cut.report_ofTokens _ _ _

namespace Sidecar

variable {reply : String → Probe.Reply} {disk disk' : Disk} {width : Nat} {trace : List Request}

/-! What a run says of each transcript. -/

/-- What is said of a transcript and the result that it is said of. -/
structure Account where
  result : Except StorageError Cut
  output : List String
  errors : List String

namespace Account

/-- Of a cut its errors are told, then its warnings, then how many segments went where,
all as output. Of a failure the reason is told as an error. -/
inductive Tells (job : Job) : Account → Prop where
  | ofCut (cut : Cut) : Tells job
      ⟨.ok cut,
        cut.report.errors.map (fun issue => job.transcript ++ ": " ++ issue.message) ++
          cut.report.warnings.map (fun issue => job.transcript ++ ": " ++ issue.message) ++
          [job.transcript ++ ": " ++
            (toString cut.segments.length ++ " segments -> " ++ job.output)],
        []⟩
  | ofFailure (e : StorageError) : Tells job
      ⟨.error e, [], [job.transcript ++ ": " ++ e.message]⟩

/-- It tells of a failure to load or to store. -/
def Failed (a : Account) : Prop :=
  ∃ e, a.result = .error e

/-- It tells of a cut with errors. -/
def HasErrors (a : Account) : Prop :=
  ∃ cut, a.result = .ok cut ∧ cut.report.errors ≠ []

/-- What is said of a job with that result. -/
def ofResult (job : Job) (result : Except StorageError Cut) : Account where
  result := result
  output := (lines job result).1
  errors := (lines job result).2

theorem tells_ofResult (job : Job) (result : Except StorageError Cut) :
    Tells job (ofResult job result) := by
  cases result with
  | error e => exact .ofFailure e
  | ok cut =>
      rw [ofResult, lines]
      simp only [List.map_append]
      exact .ofCut cut

end Account

/-- What is said of all tasks that are finished. -/
def accounts (tasks : List (Task StorageError)) : List Account :=
  tasks.filterMap fun task => task.progress.result?.map (Account.ofResult task.job)

/-- Where all tasks are finished there is one account of each transcript, in order. -/
theorem forall₂_accounts {tree : FileTree} {directory : Option String}
    {transcripts : List String} {tasks : List (Task StorageError)}
    {R : String → Account → Prop}
    (hFinished : ∀ task ∈ tasks, task.progress.isFinished = true)
    (hJobs : tasks.map Task.job = transcripts.map (settled tree directory))
    (h : ∀ transcript ∈ transcripts, ∀ result,
      ⟨settled tree directory transcript, .finished result⟩ ∈ tasks →
        R transcript (.ofResult (settled tree directory transcript) result)) :
    List.Forall₂ R transcripts (accounts tasks) := by
  induction tasks generalizing transcripts with
  | nil =>
      obtain rfl : transcripts = [] := by simpa using hJobs.symm
      exact .nil
  | cons task tasks ih =>
      cases transcripts with
      | nil => cases hJobs
      | cons transcript transcripts =>
          obtain ⟨hJob, hJobs⟩ := List.cons.inj hJobs
          obtain ⟨result, hProgress⟩ := exists_result (hFinished task List.mem_cons_self)
          have hTask : task = ⟨settled tree directory transcript, .finished result⟩ := by
            rw [← hJob, ← hProgress]
          have hRest := ih (fun other hOther => hFinished other (List.mem_cons_of_mem task hOther))
            hJobs fun other hOther result hMem =>
              h other (List.mem_cons_of_mem transcript hOther) result
                (List.mem_cons_of_mem task hMem)
          subst hTask
          exact .cons (h transcript List.mem_cons_self result List.mem_cons_self) hRest

theorem results_accounts (tasks : List (Task StorageError)) :
    (accounts tasks).map Account.result = tasks.filterMap fun task => task.progress.result? := by
  simp [accounts, List.map_filterMap, Function.comp_def, Account.ofResult]

/-! The status. -/

/-- What a status tells of the accounts that it sums up: a failure before all, and else
errors in a cut if the run is strict. -/
structure SumsUp (strict : Bool) (accounts : List Account) (status : Nat) : Prop where
  one : status = 1 ↔ ∃ account ∈ accounts, account.Failed
  two : status = 2 ↔ (¬ ∃ account ∈ accounts, account.Failed) ∧
    strict = true ∧ ∃ account ∈ accounts, account.HasErrors
  zero : status = 0 ↔ (¬ ∃ account ∈ accounts, account.Failed) ∧
    ¬ (strict = true ∧ ∃ account ∈ accounts, account.HasErrors)

/-- The status of a run is the one that sums up all that was told of its transcripts,
whether or not it is strict. -/
theorem sumsUp_status (strict : Bool) (accounts : List Account) :
    SumsUp strict accounts (status strict (accounts.map Account.result)) := by
  refine ⟨?_, ?_, ?_⟩
  · simp only [status_eq_one_iff, List.mem_map, exists_exists_and_eq_and, Account.Failed]
  · simp only [status_eq_two_iff, List.mem_map, exists_exists_and_eq_and, Account.Failed,
      Account.HasErrors]
  · simp only [status_eq_zero_iff, List.mem_map, exists_exists_and_eq_and, Account.Failed,
      Account.HasErrors]

/-! What a run leaves behind. -/

/-- The accounts of all transcripts make up what a run leaves behind. -/
structure Accounted (host : Host (StateM Disk) StorageError) (seen : Disk → Prop)
    (settings : Settings) (tree : FileTree) (transcripts : List String)
    (accounts : List Account) (o : Outcome) : Prop where
  /-- each transcript has an account of what its own loading and storing came to -/
  each : List.Forall₂ (fun transcript account =>
    account.Tells (settled tree settings.directory transcript) ∧
      (settled tree settings.directory transcript).Came host seen account.result)
    transcripts accounts
  output : o.output = accounts.flatMap Account.output
  errors : o.errors = accounts.flatMap Account.errors
  status : SumsUp settings.strict accounts o.status

/-- The lines of finished tasks are those of their accounts. -/
theorem lines_accounts {tasks : List (Task StorageError)}
    (hFinished : ∀ task ∈ tasks, task.progress.isFinished = true) :
    List.zipWith lines (tasks.map Task.job)
        (tasks.filterMap fun task => task.progress.result?) =
      (accounts tasks).map fun account => (account.output, account.errors) := by
  rw [zipWith_results lines hFinished, accounts, List.map_filterMap]
  simp [Function.comp_def, Account.ofResult]

variable {settings : Settings} {transcripts : List String} {o : Outcome}

/-- A run over transcripts gives an account of each of them, and the accounts are all
that it leaves behind. -/
theorem accounted_of_run {tasks : List (Task StorageError)}
    (hRun : Batch.Run (Disk.host reply) width
      (disk, (transcripts.map (settled disk.tree settings.directory)).map Task.new) trace
      (disk', tasks))
    (hFinished : ∀ task ∈ tasks, task.progress.isFinished = true) :
    Accounted (Disk.host reply)
      (Batch.Passes (Disk.host reply) width
        (disk, (transcripts.map (settled disk.tree settings.directory)).map Task.new) trace
        (disk', tasks))
      settings disk.tree transcripts (accounts tasks)
      (outcome settings.strict (tasks.map Task.job)
        (tasks.filterMap fun task => task.progress.result?)) where
  each := by
    refine forall₂_accounts hFinished hRun.jobs_new fun transcript _ result hTask => ?_
    exact ⟨Account.tells_ofResult _ result, Batch.comes_run hRun _ hTask⟩
  output := by simp only [outcome, lines_accounts hFinished, List.flatMap_map]
  errors := by simp only [outcome, lines_accounts hFinished, List.flatMap_map]
  status := by
    rw [outcome, ← results_accounts]
    exact sumsUp_status settings.strict (accounts tasks)

end Sidecar

end RoughCut
