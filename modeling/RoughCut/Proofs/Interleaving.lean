import Mathlib.Data.List.Perm.Basic
import Mathlib.Data.List.Nodup
import Mathlib.Logic.Function.Basic
import RoughCut.Memory
import RoughCut.Proofs.Schedules

/-!
Jobs on a host that answers by key. What such a host is asked and what comes of
each job are settled before the work begins, so every schedule comes to the
results of the jobs one by one, and it leaves the same under each key where no two
jobs share one.
-/

namespace RoughCut

variable {σ ε β : Type}

/-- A host that answers by key and path alone, with what it has under each key as
`contents`. Loading and probing change nothing, and storing changes what is under
its key. -/
structure Host.Keyed (host : Host (StateM σ) ε) (β : Type) where
  holds : σ → Prop
  source : String → Except ε Transcript
  reply : String → Option Probe.Reply
  verdict : String → Except ε Unit
  contents : σ → String → β
  write : String → Cut → β → β
  load {s : σ} (h : holds s) (key : String) : ((host.load key).run s).1 = source key ∧
    holds ((host.load key).run s).2 ∧ contents ((host.load key).run s).2 = contents s
  probe {s : σ} (h : holds s) (path : String) : ((host.probe path).run s).1 = reply path ∧
    holds ((host.probe path).run s).2 ∧ contents ((host.probe path).run s).2 = contents s
  store {s : σ} (h : holds s) (key : String) (cut : Cut) :
    ((host.store key cut).run s).1 = verdict key ∧ holds ((host.store key cut).run s).2 ∧
      contents ((host.store key cut).run s).2 =
        Function.update (contents s) key (write key cut (contents s key))

namespace Host.Keyed

variable {host : Host (StateM σ) ε} (k : host.Keyed β) {s s' : σ}

/-- What the job will have asked for when it is finished, after it has loaded. -/
def dueLoaded (job : Job) : Except ε Transcript → List Request
  | .error _ => []
  | .ok t => ((job.footageFor t).map Request.probe).toList ++
      [.store job.output (job.measured k.reply t).cut]

/-- The requests that are left to make. -/
def due (job : Job) : Progress ε → List Request
  | .waiting => .load job.transcript :: k.dueLoaded job (k.source job.transcript)
  | .probing t path => [.probe path, .store job.output (t.measured (k.reply path)).cut]
  | .storing cut => [.store job.output cut]
  | .finished _ => []

/-- The result of a job that has a cut to store. -/
def stored (job : Job) (cut : Cut) : Except ε Cut :=
  (k.verdict job.output).map fun () => cut

/-- The result to which the work will come. -/
def result (job : Job) : Progress ε → Except ε Cut
  | .waiting => (k.source job.transcript).bind fun t => k.stored job (job.measured k.reply t).cut
  | .probing t path => k.stored job (t.measured (k.reply path)).cut
  | .storing cut => k.stored job cut
  | .finished result => result

/-- What is under the keys after a request. -/
def after (contents : String → β) : Request → String → β
  | .store key cut => Function.update contents key (k.write key cut (contents key))
  | _ => contents

variable {k}

/-- A request is the first of those that were left, and the result to come stays. What
is left of a job is thus known without a look at the others. -/
theorem step {job : Job} {p p' : Progress ε} {request : Request} (hs : k.holds s)
    (hRequest : job.request? p = some request) (hStep : (job.step host p).run s = (p', s')) :
    k.due job p = request :: k.due job p' ∧ k.result job p' = k.result job p ∧ k.holds s' ∧
      k.contents s' = k.after (k.contents s) request := by
  cases Job.answers_of_step hStep with
  | @load answer _ hLoad =>
      obtain ⟨hAnswer, hHolds, hContents⟩ := k.load hs job.transcript
      rw [hLoad] at hAnswer hHolds hContents
      obtain rfl : answer = k.source job.transcript := hAnswer
      obtain rfl := Option.some.inj hRequest
      refine ⟨?_, ?_, hHolds, hContents⟩
      · rw [due]
        cases k.source job.transcript with
        | error e => rfl
        | ok t =>
            simp only [dueLoaded, Job.measured, Job.afterLoad]
            cases job.footageFor t <;> rfl
      · rw [result]
        cases k.source job.transcript with
        | error e => rfl
        | ok t =>
            simp only [Except.bind, Job.measured, Job.afterLoad]
            cases job.footageFor t <;> rfl
  | @probe t path reply _ hProbe =>
      obtain ⟨hAnswer, hHolds, hContents⟩ := k.probe hs path
      rw [hProbe] at hAnswer hHolds hContents
      obtain rfl : reply = k.reply path := hAnswer
      obtain rfl := Option.some.inj hRequest
      exact ⟨rfl, rfl, hHolds, hContents⟩
  | @store cut answer _ hStore =>
      obtain ⟨hAnswer, hHolds, hContents⟩ := k.store hs job.output cut
      rw [hStore] at hAnswer hHolds hContents
      obtain rfl : answer = k.verdict job.output := hAnswer
      obtain rfl := Option.some.inj hRequest
      refine ⟨?_, ?_, hHolds, hContents⟩
      · cases k.verdict job.output <;> rfl
      · simp only [result, stored]
        cases k.verdict job.output <;> rfl
  | rest result => cases hRequest

variable (k) in
/-- The requests that are left to make for some tasks, task by task. -/
def dueAll (tasks : List (Task ε)) : List Request :=
  tasks.flatMap fun task => k.due task.job task.progress

/-- What a run keeps: what was due is what has been asked and what is due still, each
task comes to the same result, and what is under the keys follows from the trace. -/
structure Kept (k : host.Keyed β) (c : σ × List (Task ε)) (trace : List Request)
    (d : σ × List (Task ε)) : Prop where
  due : (trace ++ k.dueAll d.2).Perm (k.dueAll c.2)
  results : d.2.map (fun task => k.result task.job task.progress) =
    c.2.map fun task => k.result task.job task.progress
  holds : k.holds d.1
  contents : k.contents d.1 = trace.foldl k.after (k.contents c.1)

variable {width : Nat} {c d : σ × List (Task ε)} {trace : List Request}

/-- The request of a step was due and is so no longer. No task comes to another result
by it, and what is under the keys follows from it. -/
theorem kept_of_step {request : Request} (hs : k.holds c.1)
    (h : Batch.Step host width c request d) : k.Kept c [request] d := by
  cases h with
  | @request before after task task' s s' request hRequest hWindow hAnswer =>
      obtain ⟨hDue, hResult, hHolds, hContents⟩ :=
        step hs hRequest (Task.progress_step hAnswer)
      have hJob := Task.job_step hAnswer
      refine ⟨?_, ?_, hHolds, hContents⟩
      · simp only [dueAll, List.flatMap_append, List.flatMap_cons, hDue, hJob]
        simpa using (List.perm_middle (a := request)).symm
      · simp [hJob, hResult]

/-- The same holds of a run, by induction on its steps. The requests of all of them were
due, in whatever order they came. -/
theorem kept_of_run (hs : k.holds c.1) (h : Batch.Run host width c trace d) :
    k.Kept c trace d := by
  induction h with
  | start => exact ⟨.refl _, rfl, hs, rfl⟩
  | @step d e trace request prior last hPrior =>
      have hLast := kept_of_step hPrior.holds last
      refine ⟨?_, hLast.results.trans hPrior.results, hLast.holds, ?_⟩
      · rw [List.append_assoc]
        exact (hLast.due.append_left trace).trans hPrior.due
      · rw [hLast.contents, hPrior.contents, List.foldl_append]

/-- Whether a cut can be stored is settled beforehand, and does not depend on when it is
tried. -/
theorem run_store (hs : k.holds s) (job : Job) (cut : Cut) :
    ((do
      match ← host.store job.output cut with
      | .error e => return .error e
      | .ok () => return .ok cut : StateM σ (Except ε Cut)).run s).1 = k.stored job cut := by
  obtain ⟨hAnswer, _⟩ := k.store hs job.output cut
  rw [StateT.run_bind, stored]
  cases hStore : (host.store job.output cut).run s with
  | mk answer s₁ =>
      obtain rfl : answer = k.verdict job.output := by rw [← hAnswer, hStore]
      cases k.verdict job.output <;> rfl

/-- A job alone comes to its result. -/
theorem process_eq (hs : k.holds s) (job : Job) :
    ((job.process host).run s).1 = k.result job .waiting := by
  obtain ⟨hLoaded, hHolds, _⟩ := k.load hs job.transcript
  rw [Job.process, StateT.run_bind]
  cases hLoad : (host.load job.transcript).run s with
  | mk answer s₁ =>
      rw [hLoad] at hLoaded hHolds
      obtain rfl : answer = k.source job.transcript := hLoaded
      cases hSource : k.source job.transcript with
      | error e =>
          simp only [result, hSource]
          rfl
      | ok t =>
          change (StateT.run (job.measure host t >>= _) s₁).1 = _
          simp only [result, hSource, Job.measured, Job.measure, Except.bind]
          cases hFootage : job.footageFor t with
          | none => exact run_store hHolds job t.cut
          | some path =>
              obtain ⟨hProbed, hHolds, _⟩ := k.probe hHolds path
              simp only [← hProbed]
              exact run_store hHolds job _

/-- What a job stores, if it comes to that. -/
theorem stored_due (job : Job) :
    (k.due job .waiting).filterMap Request.stored? =
      ((k.source job.transcript).toOption.map
        fun t => (job.output, (job.measured k.reply t).cut)).toList := by
  simp only [due, List.filterMap_cons, Request.stored?]
  cases k.source job.transcript with
  | error e => rfl
  | ok t =>
      simp only [dueLoaded]
      cases job.footageFor t <;> rfl

/-- Stores under different keys may change places. So the contents after a run do not
tell the order in which its jobs have stored. -/
theorem foldl_after_perm {first second : List Request} (h : first.Perm second)
    (hOnce : ∀ m ∈ first.filterMap Request.stored?, ∀ n ∈ first.filterMap Request.stored?,
      m.1 = n.1 → m = n) (contents : String → β) :
    first.foldl k.after contents = second.foldl k.after contents := by
  refine h.foldl_eq' ?_ contents
  intro x hx y hy contents
  cases x with
  | load key => rfl
  | probe path => rfl
  | store key cut =>
      cases y with
      | load key => rfl
      | probe path => rfl
      | store key' cut' =>
          by_cases hKey : key = key'
          · have hSame := hOnce (key, cut) (List.mem_filterMap.mpr ⟨_, hx, rfl⟩)
              (key', cut') (List.mem_filterMap.mpr ⟨_, hy, rfl⟩) hKey
            cases hSame
            rfl
          · simp only [after, Function.update_of_ne hKey, Function.update_of_ne (Ne.symm hKey)]
            exact Function.update_comm hKey _ _ _

end Host.Keyed

namespace Batch

variable {host : Host (StateM σ) ε} {s s' : σ} {jobs : List Job} {n : Nat}
  {trace : List Request} {results : List (Except ε Cut)}

/-- At its end a schedule has asked for all that was due from the start, and has come
to the results that were to come. -/
theorem Ends.kept {k : host.Keyed β} (hs : k.holds s) (hWidth : 0 < n)
    (h : Ends host n jobs s trace s' results) :
    trace.Perm (jobs.flatMap fun job => k.due job .waiting) ∧
      results = jobs.map (fun job => k.result job .waiting) ∧
      k.contents s' = trace.foldl k.after (k.contents s) := by
  obtain ⟨tasks, hRun, hMaximal, rfl⟩ := h
  have hKept := Host.Keyed.kept_of_run hs hRun
  have hFinished := all_finished hWidth hMaximal
  have hNothing : k.dueAll tasks = [] := by
    rw [Host.Keyed.dueAll, List.flatMap_eq_nil_iff]
    intro task hTask
    cases hProgress : task.progress with
    | finished result => rfl
    | _ => simpa [hProgress, Progress.isFinished] using hFinished task hTask
  have hResults : (tasks.filterMap fun task => task.progress.result?) =
      tasks.map fun task => k.result task.job task.progress := by
    rw [← List.filterMap_eq_map]
    refine List.filterMap_congr ?_
    intro task hTask
    rw [Function.comp_apply]
    cases hProgress : task.progress with
    | finished result => rfl
    | _ => simpa [hProgress, Progress.isFinished] using hFinished task hTask
  refine ⟨?_, ?_, hKept.contents⟩
  · have hDue : (trace ++ k.dueAll tasks).Perm (k.dueAll (jobs.map Task.new)) := hKept.due
    rw [hNothing, List.append_nil] at hDue
    simpa [Host.Keyed.dueAll, List.flatMap_map, Task.new] using hDue
  · rw [hResults, hKept.results]
    simp [Task.new]

/-- However the requests of the jobs are interleaved, the results are those of the jobs
alone, in the order of the jobs, and each cut that was made is handed over once. With
outputs all different, what is under the keys at the end is the same for every
schedule and every width. There is always such a schedule, the one of `process`. -/
theorem ends_keyed (k : host.Keyed β) (hs : k.holds s) :
    (∃ trace, Ends host (Nat.max 1 n) jobs s trace ((process host jobs n).run s).2
      ((process host jobs n).run s).1) ∧
    ∀ trace s' results, Ends host (Nat.max 1 n) jobs s trace s' results →
      results = jobs.map (fun job => ((job.process host).run s).1) ∧
      results.length = jobs.length ∧
      (trace.filterMap Request.stored?).Perm (jobs.filterMap fun job =>
        (k.source job.transcript).toOption.map fun t => (job.output, (job.measured k.reply t).cut)) ∧
      trace.length ≤ 3 * jobs.length ∧
      ((jobs.map Job.output).Nodup → ∀ width trace' s'' results',
        Ends host (Nat.max 1 width) jobs s trace' s'' results' → k.contents s'' = k.contents s') := by
  refine ⟨ends_process host jobs n s, fun trace s' results h => ?_⟩
  have hWidth (width : Nat) : 0 < Nat.max 1 width := Nat.le_max_left 1 width
  obtain ⟨hTrace, hResults, hContents⟩ := h.kept hs (hWidth n)
  have hStored : (trace.filterMap Request.stored?).Perm (jobs.filterMap fun job =>
      (k.source job.transcript).toOption.map fun t => (job.output, (job.measured k.reply t).cut)) := by
    refine (hTrace.filterMap _).trans (List.Perm.of_eq ?_)
    rw [List.filterMap_flatMap, List.filterMap_eq_flatMap_toList]
    simp only [Host.Keyed.stored_due]
  have hAlone : results = jobs.map (fun job => ((job.process host).run s).1) := by
    simp only [hResults, Host.Keyed.process_eq hs]
  refine ⟨hAlone, by simp [hResults], hStored, ?_, ?_⟩
  · obtain ⟨tasks, hRun, _⟩ := h
    have hLength : trace.length + left tasks ≤ left (jobs.map Task.new) := hRun.length_le
    rw [left_new] at hLength
    omega
  · intro hOutputs width trace' s'' results' hOther
    obtain ⟨hOtherTrace, _, hOtherContents⟩ := hOther.kept hs (hWidth width)
    have hOnce : ∀ x ∈ trace.filterMap Request.stored?, ∀ y ∈ trace.filterMap Request.stored?,
        x.1 = y.1 → x = y := by
      intro x hx y hy hKey
      obtain ⟨job, hJob, hCut⟩ := List.mem_filterMap.mp (hStored.mem_iff.mp hx)
      obtain ⟨job', hJob', hCut'⟩ := List.mem_filterMap.mp (hStored.mem_iff.mp hy)
      obtain ⟨t, ht, rfl⟩ := Option.map_eq_some_iff.mp hCut
      obtain ⟨t', ht', rfl⟩ := Option.map_eq_some_iff.mp hCut'
      obtain rfl := List.inj_on_of_nodup_map hOutputs hJob hJob' hKey
      rw [ht] at ht'
      cases ht'
      rfl
    rw [hContents, hOtherContents]
    exact (Host.Keyed.foldl_after_perm (hTrace.trans hOtherTrace.symm) hOnce _).symm

end Batch

namespace Memory

/-- A memory answers by key. Under each key it keeps the cuts it was given for it. -/
def keyed (m : Memory) : host.Keyed (List Cut) where
  holds n := n.transcripts = m.transcripts ∧ n.refused = m.refused ∧ n.reply = m.reply
  source key := match m.transcripts.lookup key with
    | some t => .ok t
    | none => .error (.noTranscript key)
  reply := m.reply
  verdict key := if key ∈ m.refused then .error (.refused key) else .ok ()
  contents n key := (n.stored.filter fun entry => entry.1 == key).map Prod.snd
  write key cut cuts := if key ∈ m.refused then cuts else cuts ++ [cut]
  load := by
    intro n h key
    have hRun : (host.load key).run n = ((match n.transcripts.lookup key with
        | some t => .ok t
        | none => .error (.noTranscript key)), n) := by
      change (load key).run n = _
      rw [load, StateT.run_bind, StateT.run_get, pure_bind]
      cases n.transcripts.lookup key <;> rfl
    rw [hRun]
    exact ⟨by rw [h.1], h, rfl⟩
  probe := fun h path => ⟨congrFun h.2.2 path, h, rfl⟩
  store := by
    intro n h key cut
    have hRun : (host.store key cut).run n = if key ∈ n.refused then (.error (.refused key), n)
        else (.ok (), { n with stored := n.stored ++ [(key, cut)] }) := rfl
    rw [hRun]
    by_cases hKey : key ∈ m.refused
    · rw [if_pos (h.2.1 ▸ hKey), if_pos hKey]
      exact ⟨rfl, h, by simp [hKey]⟩
    · rw [if_neg (h.2.1 ▸ hKey), if_neg hKey]
      refine ⟨rfl, h, ?_⟩
      funext other
      by_cases hOther : other = key
      · subst hOther
        simp [hKey]
      · simp [hOther, Ne.symm hOther]

end Memory

namespace Batch

/-- Three jobs two at a time, of which the second has no transcript and the third may
not store. -/
theorem ends_keyed_failing :
    let slate : Transcript := ⟨[⟨"slate", Seconds.zero⟩], Seconds.zero⟩
    let memory : Memory := ⟨[("a", slate), ("c", slate)], ["z"], fun _ => none, [], []⟩
    let jobs : List Job := [⟨"a", some "a.mp4", "x"⟩, ⟨"b", none, "y"⟩, ⟨"c", none, "z"⟩]
    (Memory.keyed memory).holds memory ∧ ∃ trace s' results,
      Ends Memory.host (Nat.max 1 2) jobs memory trace s' results ∧
      results = jobs.map (fun job => ((job.process Memory.host).run memory).1) ∧
      results.length = 3 ∧
      (trace.filterMap Request.stored?).Perm (jobs.filterMap fun job =>
        ((Memory.keyed memory).source job.transcript).toOption.map
          fun t => (job.output, (job.measured memory.reply t).cut)) := by
  intro slate memory jobs
  have hHolds : (Memory.keyed memory).holds memory := ⟨rfl, rfl, rfl⟩
  have hAll := @ends_keyed _ _ _ Memory.host memory jobs 2 (Memory.keyed memory) hHolds
  obtain ⟨⟨trace, hEnds⟩, hSchedules⟩ := hAll
  obtain ⟨hResults, hLength, hStored, _⟩ := hSchedules trace _ _ hEnds
  exact ⟨hHolds, trace, _, _, hEnds, hResults, hLength, hStored⟩

end Batch

end RoughCut
