import RoughCut.Memory
import RoughCut.Proofs.FootageEnd
import RoughCut.Proofs.Schedules

/-!
What a job asks for, request by request. The requests are noted down by a host
that answers as another one does, so that work with the one is work with the
other and its notes say what the work has asked for.
-/

namespace RoughCut

section Notes

variable {σ ε α β : Type}

/-- Does what answers a request, and notes the request down. -/
def Request.noted (request : Request) (act : StateM σ α) : StateM (σ × List Request) α :=
  fun state => ((act.run state.1).1, (act.run state.1).2, state.2 ++ [request])

/-- The host that answers as this one and keeps in order what it is asked for. -/
def Host.noting (host : Host (StateM σ) ε) : Host (StateM (σ × List Request)) ε where
  load key := Request.noted (.load key) (host.load key)
  probe path := Request.noted (.probe path) (host.probe path)
  store key cut := Request.noted (.store key cut) (host.store key cut)

/-- The act does what the plain one does, with notes of its own on the way. -/
def OnlyNotes (act : StateM (σ × List Request) α) (plain : StateM σ α) : Prop :=
  ∀ s asked, ((act.run (s, asked)).1, (act.run (s, asked)).2.1) = plain.run s

theorem Request.onlyNotes (request : Request) (act : StateM σ α) :
    OnlyNotes (request.noted act) act :=
  fun _ _ => rfl

theorem OnlyNotes.pure (a : α) :
    OnlyNotes (σ := σ) (Pure.pure a) (Pure.pure a) :=
  fun _ _ => rfl

theorem OnlyNotes.bind {act : StateM (σ × List Request) α} {plain : StateM σ α}
    {next : α → StateM (σ × List Request) β} {plainNext : α → StateM σ β}
    (h : OnlyNotes act plain) (hNext : ∀ a, OnlyNotes (next a) (plainNext a)) :
    OnlyNotes (act >>= next) (plain >>= plainNext) := by
  intro s asked
  rw [StateT.run_bind, StateT.run_bind, ← h s asked]
  exact hNext _ _ _

/-- A noted request is found behind those that were made before it. -/
theorem Request.run_noted {act : StateM σ α} {a : α} {s s' : σ} (h : act.run s = (a, s'))
    (request : Request) (asked : List Request) :
    (request.noted act).run (s, asked) = (a, s', asked ++ [request]) := by
  change ((act.run s).1, (act.run s).2, asked ++ [request]) = _
  rw [h]

end Notes

variable {σ ε : Type} {host : Host (StateM σ) ε} {job : Job} {t u : Transcript} {s s' s₁ s₂ s₃ : σ}

namespace Transcript

/-- Where the footage ends: with the length in the transcript if that is positive,
else with a positive length that was probed, else where the last token starts. -/
def footageEnd (t : Transcript) (probed : Option Seconds) : Seconds :=
  if Seconds.zero.lt t.duration then t.duration
  else (probed.filter Seconds.zero.lt).getD ((t.tokens.getLast?.map Token.start).getD Seconds.zero)

/-- What the probe of a transcript without a length leads to. A length that is not
positive is as good as none, whether it was probed or put in place of one. -/
theorem endOfFootage_measured (h : t.isUnmeasured = true) (reply : Option Probe.Reply) :
    (t.measured reply).endOfFootage =
      t.footageEnd (reply.bind fun r => r.duration.toOption) := by
  have hUnknown : Seconds.zero.lt t.duration = false := Seconds.lt_eq_false_of_le h
  cases hProbed : reply.bind fun r => r.duration.toOption with
  | none => simp [endOfFootage, footageEnd, measured, hUnknown, hProbed]
  | some length =>
      cases hPositive : Seconds.zero.lt length <;>
        simp [endOfFootage, footageEnd, measured, hUnknown, hProbed, Option.filter, hPositive]

end Transcript

namespace Probe

/-- A length is had from an output exactly if a time is written there and it can be a
length. -/
theorem toOption_ofOutput (output : String) :
    (ofOutput output).toOption = (Seconds.ofText? output).filter isLength := by
  unfold ofOutput
  cases (Seconds.ofText? output).filter isLength <;> rfl

/-- A probe has a length only of a tool that ran to a good end and wrote a finite
number that is not negative. -/
theorem Reply.toOption_duration_eq_some_iff {reply : Reply} {length : Seconds} :
    reply.duration.toOption = some length ↔
      ∃ output errors, reply = .ran true output errors ∧
        Seconds.ofText? (Text.trim (Text.Utf8.decodeLossy output)) = some length ∧
        length.isFinite = true ∧ Seconds.zero.le length = true := by
  cases reply with
  | notRun reason => simp [duration, Except.toOption]
  | ran succeeded output errors =>
      cases succeeded with
      | false => simp [duration, Except.toOption]
      | true =>
          rw [duration, toOption_ofOutput, Option.filter_eq_some_iff, isLength,
            Bool.and_eq_true_iff]
          simp

end Probe

namespace Job

/-- The work on a job is the same whether or not its requests are noted. So what is told
about the notes is told about the work. -/
theorem onlyNotes_process (host : Host (StateM σ) ε) (job : Job) :
    OnlyNotes (job.process host.noting) (job.process host) := by
  have hMeasure (t : Transcript) : OnlyNotes (job.measure host.noting t) (job.measure host t) := by
    unfold measure
    cases job.footageFor t with
    | none => exact .pure t
    | some path => exact .bind (Request.onlyNotes _ _) fun reply => .pure (t.measured reply)
  refine .bind (Request.onlyNotes _ _) fun answer => ?_
  cases answer with
  | error e => exact .pure _
  | ok t =>
      refine .bind (hMeasure t) fun u => .bind (Request.onlyNotes _ _) fun taken => ?_
      cases taken <;> exact .pure _

/-- The length of a transcript is what the probe answers, where it has to be asked. -/
theorem run_measure (s : σ) : ((job.measure host t).run s).1 =
    job.measured (fun path => ((host.probe path).run s).1) t := by
  unfold measure measured
  cases job.footageFor t <;> rfl

/-- The work is over when the transcript is not there. -/
theorem run_process_of_error {e : ε} (h : (host.load job.transcript).run s = (.error e, s₁)) :
    (job.process host).run s = (.error e, s₁) := by
  rw [process, StateT.run_bind, h]
  rfl

/-- What is stored is what comes back, if the host takes it. -/
theorem run_process_of_ok {answer : Except ε Unit}
    (hLoad : (host.load job.transcript).run s = (.ok t, s₁))
    (hMeasure : (job.measure host t).run s₁ = (u, s₂))
    (hStore : (host.store job.output u.cut).run s₂ = (answer, s₃)) :
    (job.process host).run s = (answer.map fun _ => u.cut, s₃) := by
  rw [process, StateT.run_bind, hLoad]
  change StateT.run (job.measure host t >>= _) s₁ = _
  rw [StateT.run_bind, hMeasure]
  change StateT.run (host.store job.output u.cut >>= _) s₂ = _
  rw [StateT.run_bind, hStore]
  cases answer <;> rfl

/-- What work on a job in a row comes to, and the state it ends in: the transcript is not
there, or what was measured is cut and handed over, and then refused or stored. -/
inductive Worked (host : Host (StateM σ) ε) (job : Job) (s : σ) : Except ε Cut → σ → Prop where
  | unloaded {e : ε} {s₁ : σ} (hLoad : (host.load job.transcript).run s = (.error e, s₁)) :
      Worked host job s (.error e) s₁
  | refused {t u : Transcript} {e : ε} {s₁ s₂ s₃ : σ}
      (hLoad : (host.load job.transcript).run s = (.ok t, s₁))
      (hMeasure : (job.measure host t).run s₁ = (u, s₂))
      (hStore : (host.store job.output u.cut).run s₂ = (.error e, s₃)) :
      Worked host job s (.error e) s₃
  | stored {t u : Transcript} {s₁ s₂ s₃ : σ}
      (hLoad : (host.load job.transcript).run s = (.ok t, s₁))
      (hMeasure : (job.measure host t).run s₁ = (u, s₂))
      (hStore : (host.store job.output u.cut).run s₂ = (.ok (), s₃)) :
      Worked host job s (.ok u.cut) s₃

/-- The work on a job ends in one of three ways, whatever the host is and does. It
stores once at most, and what is stored is what comes back. -/
theorem worked_of_process {result : Except ε Cut}
    (h : (job.process host).run s = (result, s')) : Worked host job s result s' := by
  cases hLoad : (host.load job.transcript).run s with
  | mk loaded s₁ =>
      cases loaded with
      | error e =>
          rw [run_process_of_error hLoad] at h
          cases h
          exact .unloaded hLoad
      | ok t =>
          cases hMeasure : (job.measure host t).run s₁ with
          | mk u s₂ =>
              cases hStore : (host.store job.output u.cut).run s₂ with
              | mk answer s₃ =>
                  rw [run_process_of_ok hLoad hMeasure hStore] at h
                  cases answer with
                  | error e =>
                      cases h
                      exact .refused hLoad hMeasure hStore
                  | ok _ =>
                      cases h
                      exact .stored hLoad hMeasure hStore

/-- What comes of handing the cut over when these requests have been made before: the
cut is the result if it is taken, and the host's reason if not. -/
def handOver (host : Host (StateM σ) ε) (job : Job) (cut : Cut) (s : σ) (asked : List Request) :
    Except ε Cut × σ × List Request :=
  let answer := (host.store job.output cut).run s
  (answer.1.map fun _ => cut, answer.2, asked ++ [.store job.output cut])

/-- Once a transcript is loaded and measured, all that is left is to hand over its cut. -/
theorem run_process_handOver {asked asked₂ : List Request}
    (hLoad : (host.load job.transcript).run s = (.ok t, s₁))
    (hMeasure : (job.measure host.noting t).run (s₁, asked ++ [.load job.transcript]) =
      (u, s₂, asked₂)) :
    (job.process host.noting).run (s, asked) = job.handOver host u.cut s₂ asked₂ :=
  run_process_of_ok (Request.run_noted hLoad _ _) hMeasure rfl

/-- A transcript without a length is probed for, if there is footage. -/
theorem run_process_probed {path : String} {reply : Option Probe.Reply} (asked : List Request)
    (hLoad : (host.load job.transcript).run s = (.ok t, s₁))
    (hUnknown : t.isUnmeasured = true) (hFootage : job.footage = some path)
    (hProbe : (host.probe path).run s₁ = (reply, s₂)) :
    (job.process host.noting).run (s, asked) =
      job.handOver host
        (Cut.ofTokens t.tokens (t.footageEnd (reply.bind fun r => r.duration.toOption)))
        s₂ (asked ++ [.load job.transcript, .probe path]) := by
  have hFor : job.footageFor t = some path := by rw [footageFor, if_pos hUnknown, hFootage]
  have hMeasure : (job.measure host.noting t).run (s₁, asked ++ [.load job.transcript]) =
      (t.measured reply, s₂, asked ++ [.load job.transcript] ++ [.probe path]) := by
    have hNoted := Request.run_noted hProbe (.probe path) (asked ++ [.load job.transcript])
    rw [measure, hFor]
    change StateT.run (t.measured <$> Request.noted (.probe path) (host.probe path)) _ = _
    rw [StateT.run_map, hNoted]
    rfl
  rw [run_process_handOver hLoad hMeasure, Transcript.cut_eq,
    Transcript.endOfFootage_measured hUnknown, List.append_assoc]
  rfl

/-- Otherwise the cut is made of the transcript as it is. -/
theorem run_process_unprobed (asked : List Request)
    (hLoad : (host.load job.transcript).run s = (.ok t, s₁))
    (hKnown : t.isUnmeasured = false ∨ job.footage = none) :
    (job.process host.noting).run (s, asked) =
      job.handOver host (Cut.ofTokens t.tokens (t.footageEnd none)) s₁
        (asked ++ [.load job.transcript]) := by
  have hFor : job.footageFor t = none := by
    rcases hKnown with hKnown | hFootage
    · simp [footageFor, hKnown]
    · simp [footageFor, hFootage]
  have hMeasure : (job.measure host.noting t).run (s₁, asked ++ [.load job.transcript]) =
      (t, s₁, asked ++ [.load job.transcript]) := by
    rw [measure, hFor]
    rfl
  rw [run_process_handOver hLoad hMeasure, Transcript.cut_eq]
  rfl

/-- Work on a job that comes to no transcript asks for nothing more and fails with the
reason for that. Else the footage is probed once if it has to be and there is some, and
never otherwise; the cut is made to the end that is known by then and handed over once;
and it is the result if it is taken, whatever the probe came to. -/
theorem requests_of_process (host : Host (StateM σ) ε) (job : Job) (s : σ)
    (asked : List Request) :
    let run := (job.process host.noting).run (s, asked)
    (run.1, run.2.1) = (job.process host).run s ∧
      (∀ e s₁, (host.load job.transcript).run s = (.error e, s₁) →
        run = (.error e, s₁, asked ++ [.load job.transcript])) ∧
      (∀ t s₁, (host.load job.transcript).run s = (.ok t, s₁) →
        (∀ path reply s₂, t.duration.le Seconds.zero = true → job.footage = some path →
          (host.probe path).run s₁ = (reply, s₂) →
          run = job.handOver host
            (Cut.ofTokens t.tokens (t.footageEnd (reply.bind fun r => r.duration.toOption)))
            s₂ (asked ++ [.load job.transcript, .probe path])) ∧
        (t.duration.le Seconds.zero = false ∨ job.footage = none →
          run = job.handOver host (Cut.ofTokens t.tokens (t.footageEnd none))
            s₁ (asked ++ [.load job.transcript]))) ∧
      ∀ (reply : Probe.Reply) length, reply.duration.toOption = some length ↔
        ∃ output errors, reply = .ran true output errors ∧
          Seconds.ofText? (Text.trim (Text.Utf8.decodeLossy output)) = some length ∧
          length.isFinite = true ∧ Seconds.zero.le length = true := by
  intro run
  refine ⟨onlyNotes_process host job s asked, fun e s₁ hLoad => ?_, fun t s₁ hLoad => ⟨?_, ?_⟩,
    fun reply length => Probe.Reply.toOption_duration_eq_some_iff⟩
  · exact run_process_of_error (Request.run_noted hLoad _ _)
  · intro path reply s₂ hUnknown hFootage hProbe
    exact run_process_probed asked hLoad hUnknown hFootage hProbe
  · exact run_process_unprobed asked hLoad

/-- The tool breaks off for footage of an unknown length, and the mark lasts until the
last token. -/
theorem requests_of_process_unreadable :
    let time (seconds : Nat) : Seconds := Seconds.ofInt seconds
    let t : Transcript :=
      ⟨[⟨"slate", time 1⟩, ⟨"mark", time 1⟩, ⟨"done", time 2⟩, ⟨"so", time 8⟩], Seconds.zero⟩
    let job : Job := ⟨"a", some "a.mov", "a.cut"⟩
    let memory : Memory := ⟨[("a", t)], [], fun _ => some (.ran false [] []), [], []⟩
    let run := (job.process Memory.host.noting).run (memory, [])
    let cut := Cut.ofTokens t.tokens (time 8)
    run.1 = .ok cut ∧
      run.2.2 = [.load "a", .probe "a.mov", .store "a.cut" cut] := by
  intro time t job memory run cut
  obtain ⟨-, -, hLoaded, -⟩ := requests_of_process Memory.host job memory []
  have hRun := (hLoaded t memory rfl).1 "a.mov" _ _ (by decide) rfl rfl
  have hEnd : t.footageEnd
      ((memory.reply "a.mov").bind fun r => r.duration.toOption) = time 8 := by
    decide +kernel
  rw [hEnd] at hRun
  exact ⟨congrArg Prod.fst hRun, congrArg (fun ended => ended.2.2) hRun⟩

end Job

/-! One request at a time. -/

section Steps

variable {m : Type → Type} [Monad m] [LawfulMonad m] (host : Host m ε) (job : Job)

namespace Batch

end Batch

end Steps

end RoughCut
