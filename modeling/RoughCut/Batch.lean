import RoughCut.Work

/-!
The work on many jobs. It goes on in rounds: in each of them the first so many
unfinished jobs make one request each. A job takes part from the moment that
few enough before it are unfinished, and the results keep the order of the jobs.
-/

namespace RoughCut

/-- A job and how far the work on it is. -/
structure Task (ε : Type) where
  job : Job
  progress : Progress ε

namespace Task

def new (job : Job) : Task ε := ⟨job, .waiting⟩

variable {m : Type → Type} [Monad m]

def step (host : Host m ε) (task : Task ε) : m (Task ε) :=
  (fun progress => ⟨task.job, progress⟩) <$> task.job.step host task.progress

end Task

namespace Batch

variable {m : Type → Type} [Monad m]

/-- Lets the first `width` unfinished jobs make one request each, in their order. -/
def round (host : Host m ε) : (width : Nat) → List (Task ε) → m (List (Task ε))
  | 0, tasks => pure tasks
  | _ + 1, [] => pure []
  | width + 1, task :: tasks =>
    if task.progress.isFinished then do
      let tasks ← round host (width + 1) tasks
      return task :: tasks
    else do
      let task ← task.step host
      let tasks ← round host width tasks
      return task :: tasks

/-- So many rounds, one after the other. -/
def rounds (host : Host m ε) (width : Nat) : Nat → List (Task ε) → m (List (Task ε))
  | 0, tasks => pure tasks
  | n + 1, tasks => do
    let tasks ← round host width tasks
    rounds host width n tasks

/-- Works on jobs, at most `width` at a time but always on one, until all are
finished. A round makes a request for some job as long as one is unfinished,
and no job makes more than three. -/
def process (host : Host m ε) (jobs : List Job) (width : Nat) : m (List (Except ε Cut)) := do
  let tasks ← rounds host (Nat.max 1 width) (3 * jobs.length) (jobs.map Task.new)
  return tasks.filterMap fun task => task.progress.result?

end Batch

end RoughCut
