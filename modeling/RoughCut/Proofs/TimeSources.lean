import RoughCut.Proofs.BodyLimit
import RoughCut.Proofs.FootageEnd
import RoughCut.Proofs.Json.FiniteNumbers
import RoughCut.Proofs.Json.TakenTimes
import RoughCut.Proofs.SlateAccounting
import RoughCut.Work

/-!
Where the times of a cut come from. A transcript that is read has finite times, on
either route. Each time of its cut is that of a token, the length of the footage, or
zero, so all of them are finite and none is written as `null`.
-/

namespace RoughCut

open Json

/-- Every number that can be read is a finite time. -/
theorem Json.Number.readWith_isFinite : ReadWith fun x => x.isFinite = true :=
  fun _ _ _ _ h => isFinite_of_read h

namespace Transcript

variable {t : Transcript} {text : String} {x : Seconds}

/-- A transcript in its own format has no times but those of its tokens and its length. -/
theorem finite_of_allTimes (h : shape.AllTimes (fun x => x.isFinite = true) t) :
    t.HasFiniteTimes := by
  obtain ⟨⟨tokens, duration, ⟨⟩⟩, rfl, hTokens, hDuration, -⟩ := h
  refine ⟨hDuration, fun token hMem => ?_⟩
  obtain ⟨⟨word, start, ⟨⟩⟩, rfl, -, hStart, -⟩ := hTokens token hMem
  exact hStart

/-- A transcript in the other format has no times but those of its words and its length.
-/
theorem finite_of_allTimes_whisper
    (h : Whisper.transcript.AllTimes (fun x => x.isFinite = true) t) : t.HasFiniteTimes := by
  obtain ⟨⟨duration, segments, ⟨⟩⟩, rfl, hDuration, hSegments, -⟩ := h
  refine ⟨hDuration, fun token hMem => ?_⟩
  obtain ⟨words, hSegment, hWord⟩ := List.mem_flatten.mp hMem
  obtain ⟨⟨_, ⟨⟩⟩, rfl, hWords, -⟩ := hSegments words hSegment
  obtain ⟨⟨word, start, ⟨⟩⟩, rfl, -, hStart, -⟩ := hWords token hWord
  exact hStart

theorem shape_defaultTimes : shape.DefaultTimes fun x => x.isFinite = true := by
  have hZero : Seconds.zero.isFinite = true := by decide
  refine ⟨?_, ⟨?_, trivial, ?_, trivial, trivial⟩, ?_, trivial, trivial⟩
  · exact fun _ h => nomatch h
  · exact fun _ h => nomatch h
  · exact fun _ h => nomatch h
  · rintro _ ⟨⟩
    exact hZero

theorem whisper_defaultTimes : Whisper.transcript.DefaultTimes fun x => x.isFinite = true := by
  have hZero : Seconds.zero.isFinite = true := by decide
  refine ⟨?_, trivial, ?_, ⟨?_, ⟨?_, trivial, ?_, trivial, trivial⟩, trivial⟩, trivial⟩
  · rintro _ ⟨⟩
    exact hZero
  · exact fun _ h => nomatch h
  · rintro _ ⟨⟩ _ ⟨⟩
  · exact fun _ h => nomatch h
  · exact fun _ h => nomatch h

/-- A transcript in a file has finite times, in whichever form it is. -/
theorem finite_of_ofJson (h : ofJson text = .ok t) : t.HasFiniteTimes := by
  obtain ⟨v, hParse, hTaken⟩ := ofValue_of_ofJson h
  obtain ⟨r, hWhole, -⟩ := Value.readDeep_of_parse hParse
  have hValue := Value.allTimes_of_readDeep Number.readWith_isFinite hWhole
  split at hTaken
  · exact finite_of_allTimes
      ((shape.keepsTimes Number.readWith_isFinite shape_defaultTimes).taken hValue hTaken)
  · exact finite_of_allTimes_whisper
      ((Whisper.transcript.keepsTimes Number.readWith_isFinite whisper_defaultTimes).taken
        hValue hTaken)

/-- A transcript in a body has finite times, whatever is passed over in the body. -/
theorem finite_of_readFront {body : List UInt8} (h : shape.readFront body = .ok t) :
    t.HasFiniteTimes := by
  obtain ⟨⟨u, r⟩, hRead, rfl⟩ := map_eq_ok_iff.mp h
  exact finite_of_allTimes
    ((shape.keepsTimes Number.readWith_isFinite shape_defaultTimes).read hRead)

/-- The end of the footage is its length, or where a token starts, or zero. -/
theorem endOfFootage_source (t : Transcript) :
    t.endOfFootage = t.duration ∨ (∃ token ∈ t.tokens, token.start = t.endOfFootage) ∨
      t.endOfFootage = Seconds.zero := by
  unfold endOfFootage
  split
  · exact Or.inl rfl
  · cases hLast : t.tokens.getLast? with
    | none => exact Or.inr (Or.inr rfl)
    | some token => exact Or.inr (Or.inl ⟨token, List.mem_of_getLast? hLast, rfl⟩)

end Transcript

namespace Cut

variable {tokens : List Token} {footage x : Seconds}

/-- An issue is reported under the time of a slate. -/
theorem exists_slate_of_mem_report {i : Issue}
    (h : i ∈ (ofTokens tokens footage).report.errors ++ (ofTokens tokens footage).report.warnings) :
    ∃ slate ∈ Token.normalized tokens, slate.start = i.start := by
  rw [List.mem_append, errors_ofTokens, List.mem_append, warnings_ofTokens, List.mem_reverse] at h
  rcases h with (hMalformed | hUnrecognized) | hWarning
  · have hStart := (Token.slates_perm (Token.normalized tokens)).mem_iff.mpr
      (List.mem_append_right _ (List.mem_map_of_mem hMalformed))
    obtain ⟨slate, hSlate, hSame⟩ := List.mem_map.mp hStart
    exact ⟨slate, (List.mem_filter.mp hSlate).1, hSame⟩
  · have hStart := (Window.starts_perm (Token.windows (Token.normalized tokens))).mem_iff.mpr
      (List.mem_append_right _ (List.mem_map_of_mem hUnrecognized))
    obtain ⟨w, hWindow, hSame⟩ := List.mem_map.mp hStart
    obtain ⟨slate, hSlate, -, hStart⟩ := Token.exists_slate_of_mem_windows hWindow
    exact ⟨slate, hSlate, hStart.trans hSame⟩
  · have hStart := (Timeline.commands_perm (Command.inOrder (commands tokens))).mem_iff.mpr
      (List.mem_append_right _ (List.mem_append_left _
        (List.mem_map_of_mem (List.mem_reverse.mpr hWarning))))
    obtain ⟨c, hCommand, hSame⟩ := List.mem_map.mp hStart
    obtain ⟨slate, hSlate, -, hStart⟩ :=
      exists_slate_of_mem_commands ((Command.perm_inOrder _).mem_iff.mp hCommand)
    exact ⟨slate, hSlate, hStart.trans hSame⟩

/-- A segment ends at the end of the footage or where a slate is. -/
theorem stop_source {s : Segment} (h : s ∈ (ofTokens tokens footage).segments) :
    s.stop = footage ∨ ∃ slate ∈ Token.normalized tokens, slate.start = s.stop := by
  obtain ⟨i, hAt⟩ := List.mem_iff_getElem?.mp h
  rw [segments_ofTokens] at hAt
  obtain ⟨o, hOpen, -, hStart, hStop⟩ := Segment.exists_of_getElem?_closeAll _ _ hAt
  generalize hNext : (Timeline.ofCommands (commands tokens)).segments.reverse[i + 1]? = next
    at hStop
  cases next with
  | none =>
      have hMax : footage.max o.start = footage ∨ footage.max o.start = o.start := by
        unfold Seconds.max
        split
        · exact Or.inr rfl
        · exact Or.inl rfl
      refine hMax.imp (fun hFootage => hStop.trans hFootage) fun hOwn => ?_
      obtain ⟨slate, hSlate, hSame⟩ := exists_slate_of_mem_segments h
      exact ⟨slate, (List.mem_filter.mp hSlate).1, by rw [hSame, hStart, ← hOwn]; exact hStop.symm⟩
  | some n =>
      obtain ⟨slate, hSlate, hSame⟩ :=
        exists_slate_of_mem_timeline (List.mem_reverse.mp (List.mem_of_getElem? hNext))
      exact Or.inr ⟨slate, (List.mem_filter.mp hSlate).1, hSame.trans hStop.symm⟩

/-- Every time of a cut is the end of the footage or that of a token. -/
theorem time_source (h : x ∈ (ofTokens tokens footage).times) :
    x = footage ∨ ∃ token ∈ tokens, token.start = x := by
  have hSource : x = footage ∨ ∃ slate ∈ Token.normalized tokens, slate.start = x := by
    rcases List.mem_append.mp h with hSegment | hIssue
    · obtain ⟨s, hMem, hTime⟩ := List.mem_flatMap.mp hSegment
      simp only [List.mem_cons, List.not_mem_nil, or_false] at hTime
      rcases hTime with rfl | rfl
      · obtain ⟨slate, hSlate, hStart⟩ := exists_slate_of_mem_segments hMem
        exact Or.inr ⟨slate, (List.mem_filter.mp hSlate).1, hStart⟩
      · exact stop_source hMem
    · obtain ⟨i, hMem, rfl⟩ := List.mem_map.mp hIssue
      exact Or.inr (exists_slate_of_mem_report hMem)
  rcases hSource with hFootage | ⟨slate, hSlate, hStart⟩
  · exact Or.inl hFootage
  · obtain ⟨token, hToken, hSame⟩ := Token.exists_start_of_mem_normalized hSlate
    exact Or.inr ⟨token, hToken, hSame.trans hStart⟩

end Cut

/-- The text of a finite time is that of a number. -/
theorem Seconds.chars_ne_null {x : Seconds} (h : x.isFinite = true) :
    Number.chars (.decimal x) ≠ "null".toList := by
  intro hNull
  have hOpening := opening_chars h []
  rw [hNull] at hOpening
  cases hOpening

/-- A length that was probed is finite, since the others are refused. -/
theorem Probe.Reply.isFinite_of_duration {reply : Probe.Reply} {x : Seconds}
    (h : reply.duration = .ok x) : x.isFinite = true := by
  unfold duration at h
  split at h
  · cases h
  · cases h
  · unfold ofOutput at h
    split at h
    · next length hLength =>
      cases h
      obtain ⟨-, hLength⟩ := Option.filter_eq_some_iff.mp hLength
      exact (Bool.and_eq_true_iff.mp hLength).1
    · cases h

/-- The times of the cut are finite and written as numbers, so that its texts can be
read, and each of them is that of a token of the transcript, its length, the length
that was probed, or zero. An index is a machine word. -/
structure Cut.TimedBy (c : Cut) (t : Transcript) (probed : Option Seconds) : Prop where
  finite : ∀ x ∈ c.times, x.isFinite = true
  source : ∀ x ∈ c.times, (∃ token ∈ t.tokens, token.start = x) ∨ x = t.duration ∨
    x ∈ probed ∨ x = Seconds.zero
  written : ∀ x ∈ c.times, Number.chars (.decimal x) ≠ "null".toList
  readable : (∀ s ∈ c.segments, s.index < 2 ^ 64) →
    ∃ d, shape.readText c.compactJson = .ok d ∧ shape.readText c.prettyJson = .ok d

namespace Transcript

variable {t : Transcript}

/-- Times that come from a transcript with finite times, from a finite length, or are
zero, are finite as well. -/
theorem timedBy_of_source {c : Cut} {probed : Option Seconds} (hFinite : t.HasFiniteTimes)
    (hProbed : ∀ x ∈ probed, x.isFinite = true)
    (hSource : ∀ x ∈ c.times, (∃ token ∈ t.tokens, token.start = x) ∨ x = t.duration ∨
      x ∈ probed ∨ x = Seconds.zero) : c.TimedBy t probed := by
  have hAll : ∀ x ∈ c.times, x.isFinite = true := by
    intro x hx
    rcases hSource x hx with ⟨token, hToken, rfl⟩ | rfl | hLength | rfl
    · exact hFinite.2 token hToken
    · exact hFinite.1
    · exact hProbed x hLength
    · decide
  refine ⟨hAll, hSource, fun x hx => Seconds.chars_ne_null (hAll x hx), fun hIndex => ?_⟩
  exact ⟨_, Cut.readText_mapTimes hIndex fun x hx => Seconds.reading_of_isFinite (hAll x hx)⟩

/-- The cut of a transcript has the times of its tokens and the end of its footage. -/
theorem cut_source {x : Seconds} (h : x ∈ t.cut.times) :
    (∃ token ∈ t.tokens, token.start = x) ∨ x = t.duration ∨ x = Seconds.zero := by
  rw [cut_eq] at h
  rcases Cut.time_source h with rfl | hToken
  · rcases t.endOfFootage_source with hDuration | hToken | hZero
    · exact Or.inr (Or.inl hDuration)
    · exact Or.inl hToken
    · exact Or.inr (Or.inr hZero)
  · exact Or.inl hToken

/-- A cut has no times but those of its transcript. -/
theorem timedBy_cut (h : t.HasFiniteTimes) : t.cut.TimedBy t none := by
  refine timedBy_of_source h (by simp) fun x hx => ?_
  rcases cut_source hx with hToken | hDuration | hZero
  · exact Or.inl hToken
  · exact Or.inr (Or.inl hDuration)
  · exact Or.inr (Or.inr (Or.inr hZero))

/-- Measuring the footage brings in the length that was probed and nothing else. A
transcript that tells its own length is not measured. -/
theorem timedBy_measured (h : t.HasFiniteTimes) (reply : Option Probe.Reply) :
    (t.measured reply).cut.TimedBy t (reply.bind fun r => r.duration.toOption) := by
  refine timedBy_of_source h (fun x hx => ?_) fun x hx => ?_
  · obtain ⟨r, -, hLength⟩ := Option.bind_eq_some_iff.mp hx
    cases hDuration : r.duration with
    | error failure => simp [hDuration, Except.toOption] at hLength
    | ok length =>
        simp only [hDuration, Except.toOption, Option.some_inj] at hLength
        exact hLength ▸ Probe.Reply.isFinite_of_duration hDuration
  · rcases cut_source hx with hToken | hDuration | hZero
    · exact Or.inl hToken
    · cases hProbed : reply.bind fun r => r.duration.toOption with
      | some length =>
          rw [measured, hProbed] at hDuration
          exact Or.inr (Or.inr (Or.inl (congrArg some hDuration.symm)))
      | none =>
          rw [measured, hProbed] at hDuration
          obtain rfl : x = t.endOfFootage := hDuration
          rcases t.endOfFootage_source with hLength | hToken | hZero
          · exact Or.inr (Or.inl hLength)
          · exact Or.inl hToken
          · exact Or.inr (Or.inr (Or.inr hZero))
    · exact Or.inr (Or.inr (Or.inr hZero))

end Transcript

end RoughCut
