import RoughCut.Probe
import RoughCut.Proofs.Seconds.Nearest
import RoughCut.Proofs.Seconds.Written
import RoughCut.Proofs.Text.NormalForm
import RoughCut.Proofs.Text.Utf8

/-!
What a probe for the length of footage comes to. A tool that did not run or came to no
good end has no length to tell. One that did has told one exactly if its output is a
decimal, apart from blanks around it, that rounds to a finite time not below zero.
-/

namespace RoughCut.Probe

open Text.Utf8

variable {output errors : List UInt8} {text : String} {x : Seconds}

/-- How a tool that could be run has come to an end. -/
inductive Ending where
  | exited (code : Nat)
  | killed (signal : Nat)
  deriving DecidableEq

/-- The one good end is with the exit code zero. -/
def Ending.succeeded (ending : Ending) : Bool :=
  ending == .exited 0

/-- The reply of a tool that ended like this. -/
def Reply.ended (ending : Ending) (output errors : List UInt8) : Reply :=
  .ran ending.succeeded output errors

/-- The times that are written as words are not finite. -/
theorem isFinite_of_ofWord? {negative : Bool} {s : List Char}
    (h : Seconds.ofWord? negative s = some x) : x.isFinite = false := by
  unfold Seconds.ofWord? at h
  dsimp only at h
  split_ifs at h
  · cases h
    cases negative <;> decide
  · cases h
    decide
  · cases h
    decide

/-- Text is read as a finite time if it is a decimal that is rounded to it. -/
theorem ofText?_eq_some_iff (hFinite : x.isFinite = true) :
    Seconds.ofText? text = some x ↔ ∃ d, Decimal.Spelled text.toList d ∧ d.RoundsTo x := by
  simp only [Seconds.ofText?, Decimal.roundsTo_iff, ← Decimal.ofChars?_eq_some_iff]
  cases hChars : Decimal.ofChars? text.toList with
  | some d => simp [eq_comm]
  | none =>
      refine iff_of_false (fun hWord => ?_) (by simp)
      rw [isFinite_of_ofWord? hWord] at hFinite
      cases hFinite

/-- An output is a length exactly if it is spelled as a decimal and this is rounded to a
finite time that is not negative. Words for infinity and for no number are spelled like
none. -/
theorem ofOutput_eq_ok_iff :
    ofOutput text = .ok x ↔ ∃ d, Decimal.Spelled text.toList d ∧ d.RoundsTo x ∧
      x.isFinite = true ∧ Seconds.zero.le x = true := by
  have hOk : ofOutput text = .ok x ↔ Seconds.ofText? text = some x ∧ isLength x = true := by
    rw [← Option.filter_eq_some_iff, ofOutput]
    cases (Seconds.ofText? text).filter isLength <;> simp
  rw [hOk, isLength, Bool.and_eq_true]
  constructor
  · rintro ⟨hText, hFinite, hPositive⟩
    obtain ⟨d, hSpelled, hRounds⟩ := (ofText?_eq_some_iff hFinite).mp hText
    exact ⟨d, hSpelled, hRounds, hFinite, hPositive⟩
  · rintro ⟨d, hSpelled, hRounds, hFinite, hPositive⟩
    exact ⟨(ofText?_eq_some_iff hFinite).mpr ⟨d, hSpelled, hRounds⟩, hFinite, hPositive⟩

/-- An output that is not a length is refused with the whole of what was written, and
with nothing else. -/
theorem ofOutput_cases (text : String) :
    (∃ x, ofOutput text = .ok x) ∨ ofOutput text = .error (.invalidDuration text) := by
  unfold ofOutput
  split
  · exact Or.inl ⟨_, rfl⟩
  · exact Or.inr rfl

/-- What is empty or has a character that no decimal has is refused as it is. The
refusal quotes the text, with nothing cut off but blanks. -/
theorem ofOutput_of_unwritten
    (h : text = "" ∨ ∃ c ∈ text.toList, Decimal.isWritten c = false) :
    ofOutput text = .error (.invalidDuration text) := by
  refine (ofOutput_cases text).resolve_left ?_
  rintro ⟨x, hOk⟩
  obtain ⟨d, hSpelled, -⟩ := ofOutput_eq_ok_iff.mp hOk
  obtain ⟨hSome, hWritten⟩ := hSpelled.written
  rcases h with rfl | ⟨c, hMem, hOther⟩
  · exact hSome rfl
  · rw [hWritten c hMem] at hOther
    cases hOther

/-- Of a probe that ended well only its output counts, as far as it can be read as text,
without the blanks around it. -/
theorem duration_of_success (output errors : List UInt8) :
    (Reply.ended (.exited 0) output errors).duration =
      ofOutput (Text.trim (decodeLossy output)) := by
  have hSucceeded : (Ending.exited 0).succeeded = true := by decide
  rw [Reply.ended, hSucceeded, Reply.duration]

/-- Blanks around what a tool wrote are not seen. -/
theorem trim_decodeLossy_around {before after : String}
    (hBefore : ∀ c ∈ before.toList, Text.isBlank c = true)
    (hAfter : ∀ c ∈ after.toList, Text.isBlank c = true) (bytes : List UInt8) :
    Text.trim (decodeLossy (encode before ++ bytes ++ encode after)) =
      Text.trim (decodeLossy bytes) := by
  rw [Text.trim, Text.trim, decodeLossy_around, Text.strip_around hBefore hAfter]

/-- The length that a probe comes to. Where the tool could not run, or did not end with
the exit code zero, that is the failure, whatever it wrote on its output. Else its output
without the blanks around it has to be a decimal that rounds to a finite time not below
zero, which is then the length; anything else is the failure, among it nothing at all and
every text with a character beside digits, signs, points and the letter of the exponent,
such as the names of infinity and NaN and several lines. -/
theorem duration_of_reply :
    (∀ reason, (Reply.notRun reason).duration = .error (.notRun reason)) ∧
    (∀ ending output errors, ending ≠ .exited 0 →
      (Reply.ended ending output errors).duration =
        .error (.failed (Text.trim (decodeLossy errors)))) ∧
    (∀ output errors,
      let text := Text.trim (decodeLossy output)
      let duration := (Reply.ended (.exited 0) output errors).duration
      (∀ x, duration = .ok x ↔ ∃ d, Decimal.Spelled text.toList d ∧ d.RoundsTo x ∧
        x.isFinite = true ∧ Seconds.zero.le x = true) ∧
      ((∃ x, duration = .ok x) ∨ duration = .error (.invalidDuration text)) ∧
      (text = "" ∨ (∃ c ∈ text.toList, Decimal.isWritten c = false) →
        duration = .error (.invalidDuration text))) ∧
    ∀ ending output errors (before after : String),
      (∀ c ∈ before.toList ++ after.toList, Text.isBlank c = true) →
        (Reply.ended ending (encode before ++ output ++ encode after) errors).duration =
          (Reply.ended ending output errors).duration ∧
        (Reply.ended ending output (encode before ++ errors ++ encode after)).duration =
          (Reply.ended ending output errors).duration := by
  refine ⟨fun reason => rfl, fun ending output errors hEnding => ?_, fun output errors => ?_,
    fun ending output errors before after hBlank => ?_⟩
  · have hFailed : ending.succeeded = false := beq_eq_false_iff_ne.mpr hEnding
    rw [Reply.ended, hFailed, Reply.duration]
  · intro text duration
    have hDuration : duration = ofOutput text := duration_of_success output errors
    rw [hDuration]
    exact ⟨fun x => ofOutput_eq_ok_iff, ofOutput_cases text, ofOutput_of_unwritten⟩
  · have hBefore := fun c hMem => hBlank c (List.mem_append_left _ hMem)
    have hAfter := fun c hMem => hBlank c (List.mem_append_right _ hMem)
    unfold Reply.ended
    cases ending.succeeded with
    | true => simp only [Reply.duration, trim_decodeLossy_around hBefore hAfter, and_self]
    | false => simp only [Reply.duration, trim_decodeLossy_around hBefore hAfter, and_self]

/-- A length with blanks around it, infinity, and a tool that was stopped. -/
theorem duration_of_reply_around :
    (Reply.ended (.exited 0) (encode "\u00a0\t" ++ encode "+90.50e0" ++ encode "\r\n")
        []).duration = .ok ⟨0x4056A00000000000⟩ ∧
      (Reply.ended (.exited 0) (encode "-Infinity") []).duration =
        .error (.invalidDuration "-Infinity") ∧
      (Reply.ended (.killed 9) (encode "90.5") (encode " gone\n")).duration =
        .error (.failed "gone") := by
  obtain ⟨-, hFailed, hSucceeded, hBlank⟩ := duration_of_reply
  refine ⟨?_, ?_, ?_⟩
  · have hBlanks : ("\u00a0\t".toList ++ "\r\n".toList).all Text.isBlank = true := rfl
    rw [(hBlank (.exited 0) (encode "+90.50e0") [] _ _ (List.all_eq_true.mp hBlanks)).1]
    refine ((hSucceeded (encode "+90.50e0") []).1 _).mpr ⟨⟨false, 9050, -2⟩, ?_, ?_, ?_, ?_⟩
    · rw [decodeLossy_encode]
      exact Decimal.ofChars?_eq_some_iff.mp (by decide)
    · exact Decimal.roundsTo_iff.mpr (by decide +kernel)
    · decide
    · decide
  · have hInfinity := (hSucceeded (encode "-Infinity") []).2.2
    have hSame : Text.trim "-Infinity" = "-Infinity" := rfl
    rw [decodeLossy_encode, hSame] at hInfinity
    exact hInfinity (Or.inr ⟨'I', by decide, by decide⟩)
  · have hGone : Text.trim " gone\n" = "gone" := rfl
    rw [hFailed (.killed 9) _ _ (by decide), decodeLossy_encode, hGone]

end RoughCut.Probe
