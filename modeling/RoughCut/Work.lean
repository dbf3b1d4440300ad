import RoughCut.Cut
import RoughCut.Probe

/-!
The work on one job: its transcript is loaded, its footage is measured if the
transcript does not know its length, and the cut is stored. Each of these is a
request to a host. `Job.process` makes the requests of one job in a row, and
`Job.step` makes one request at a time, so that other work can go on between.
-/

namespace RoughCut

/-- The keys of a transcript and of its cut, and the footage to measure when
the transcript does not know its length. -/
structure Job where
  transcript : String
  footage : Option String
  output : String
  deriving DecidableEq

/-- Where transcripts come from and cuts go, with failures of type `ε`. -/
structure Host (m : Type → Type) (ε : Type) where
  load : (key : String) → m (Except ε Transcript)
  /-- Nothing comes back when the attempt broke off. -/
  probe : (path : String) → m (Option Probe.Reply)
  store : (key : String) → Cut → m (Except ε Unit)

namespace Transcript

/-- Whether footage has to be measured to know where it ends. A NaN is taken
for a length. -/
def isUnmeasured (t : Transcript) : Bool :=
  t.duration.le Seconds.zero

/-- The transcript with the length that a probe replied. A reply without one
leaves the footage to end where the last token starts. -/
def measured (t : Transcript) (reply : Option Probe.Reply) : Transcript :=
  { t with duration := (reply.bind fun r => r.duration.toOption).getD t.endOfFootage }

end Transcript

/-- How far the work on a job is. -/
inductive Progress (ε : Type) where
  | waiting
  | probing (t : Transcript) (path : String)
  | storing (cut : Cut)
  | finished (result : Except ε Cut)

namespace Progress

/-- How many requests are left to make at most. -/
def left : Progress ε → Nat
  | waiting => 3
  | probing _ _ => 2
  | storing _ => 1
  | finished _ => 0

/-- The result of work that is finished. -/
def result? : Progress ε → Option (Except ε Cut)
  | finished result => some result
  | _ => none

def isFinished : Progress ε → Bool
  | finished _ => true
  | _ => false

end Progress

namespace Job

/-- What to measure for a transcript, if it is in need of that and there is footage. -/
def footageFor (job : Job) (t : Transcript) : Option String :=
  if t.isUnmeasured then job.footage else none

/-- How far the work is when the transcript has been asked for. -/
def afterLoad (job : Job) : Except ε Transcript → Progress ε
  | .error e => .finished (.error e)
  | .ok t =>
    match job.footageFor t with
    | some path => .probing t path
    | none => .storing t.cut

/-- How far the work is when the cut has been handed over. -/
def afterStore (cut : Cut) : Except ε Unit → Progress ε
  | .error e => .finished (.error e)
  | .ok () => .finished (.ok cut)

variable {m : Type → Type} [Monad m]

/-- Makes the next request of a job. -/
def step (host : Host m ε) (job : Job) : Progress ε → m (Progress ε)
  | .waiting => job.afterLoad <$> host.load job.transcript
  | .probing t path => (fun reply => .storing (t.measured reply).cut) <$> host.probe path
  | .storing cut => afterStore cut <$> host.store job.output cut
  | .finished result => pure (.finished result)

/-- The transcript with the length of its footage, as far as it can be found out. -/
def measure (host : Host m ε) (job : Job) (t : Transcript) : m Transcript :=
  match job.footageFor t with
  | some path => t.measured <$> host.probe path
  | none => pure t

/-- Loads, cuts and stores one transcript. -/
def process (host : Host m ε) (job : Job) : m (Except ε Cut) := do
  match ← host.load job.transcript with
  | .error e => return .error e
  | .ok t =>
    let t ← job.measure host t
    match ← host.store job.output t.cut with
    | .error e => return .error e
    | .ok () => return .ok t.cut

end Job

end RoughCut
