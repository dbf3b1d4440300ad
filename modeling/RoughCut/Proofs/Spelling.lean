import RoughCut.Cut
import RoughCut.Proofs.Text.NormalForm

/-!
How words are spelled. A reader of one word at a time meets the words that
normalizing the whole list gives, so both ways lead to one cut. What a
transcriber glues onto a word and what is no word at all have no part in it.
-/

namespace RoughCut

namespace Token

theorem normalized_of_nextWord?_none {ts : List Token} (h : nextWord? ts = none) :
    normalized ts = [] := by
  induction ts with
  | nil => rfl
  | cons t ts ih =>
      cases hNormal : t.normal? with
      | none =>
          rw [normalized, List.filterMap_cons_none hNormal]
          exact ih (by simpa [nextWord?, hNormal] using h)
      | some w => simp [nextWord?, hNormal] at h

/-- The next word is the first in normal form, and the others are found in what follows
it. -/
theorem normalized_of_nextWord?_some {ts rest : List Token} {w : Token}
    (h : nextWord? ts = some (w, rest)) : normalized ts = w :: normalized rest := by
  induction ts with
  | nil => cases h
  | cons t ts ih =>
      rw [normalized, List.filterMap_cons]
      cases hNormal : t.normal? with
      | none => exact ih (by simpa [nextWord?, hNormal] using h)
      | some v =>
          simp only [nextWord?, hNormal, Option.some.injEq, Prod.mk.injEq] at h
          obtain ⟨rfl, rfl⟩ := h
          rfl

/-- The words a reader has found and those it still meets are all there are. -/
theorem wordsAfter_eq (found tokens : List Token) :
    wordsAfter found tokens = found.reverse ++ normalized tokens := by
  induction found, tokens using wordsAfter.induct with
  | case1 found tokens hNone =>
      rw [wordsAfter, hNone, normalized_of_nextWord?_none hNone, List.append_nil]
  | case2 found tokens w rest hSome ih =>
      rw [wordsAfter, hSome, normalized_of_nextWord?_some hSome]
      simpa using ih

/-- Words that are found one at a time are those that are found at once. -/
theorem words_eq_normalized (tokens : List Token) : words tokens = normalized tokens :=
  wordsAfter_eq [] tokens

/-- Tokens that were normalized are not changed by being normalized again. -/
theorem normalized_normalized (tokens : List Token) :
    normalized (normalized tokens) = normalized tokens :=
  normalized_eq_self fun _ hMem => isNormal_of_mem_normalized hMem

/-- The same words are said at the same times. They may be spelled with other
blanks and punctuation around them, and tokens without a word may be anywhere. -/
inductive SameSpeech : List Token → List Token → Prop where
  | nil : SameSpeech [] []
  | word {t u : Token} {ts us : List Token}
      (hText : Text.normalize u.text = Text.normalize t.text) (hStart : u.start = t.start)
      (rest : SameSpeech ts us) : SameSpeech (t :: ts) (u :: us)
  | leave {t : Token} {ts us : List Token} (hSilent : Text.normalize t.text = "")
      (rest : SameSpeech ts us) : SameSpeech (t :: ts) us
  | insert {u : Token} {ts us : List Token} (hSilent : Text.normalize u.text = "")
      (rest : SameSpeech ts us) : SameSpeech ts (u :: us)

theorem normalized_cons_of_silent {t : Token} (h : Text.normalize t.text = "")
    (ts : List Token) : normalized (t :: ts) = normalized ts := by
  have hNone : t.normal? = none := by
    rw [normal?, h]
    rfl
  rw [normalized, List.filterMap_cons_none hNone]
  rfl

/-- The same speech has the same normal form, whatever stands around its words and
between them. -/
theorem SameSpeech.normalized_eq {ts us : List Token} (h : SameSpeech ts us) :
    normalized us = normalized ts := by
  induction h with
  | nil => rfl
  | @word t u ts us hText hStart _ ih =>
      have hWord : u.normal? = t.normal? := by rw [normal?, normal?, hText, hStart]
      rw [normalized, normalized, List.filterMap_cons, List.filterMap_cons, hWord]
      cases t.normal? with
      | none => exact ih
      | some w => exact congrArg (w :: ·) ih
  | leave hSilent _ ih => rw [ih, normalized_cons_of_silent hSilent]
  | insert hSilent _ ih => rw [normalized_cons_of_silent hSilent, ih]

end Token

namespace Cut

/-- Tokens with one normal form have one cut. -/
theorem ofTokens_eq_of_normalized {ts us : List Token}
    (h : Token.normalized us = Token.normalized ts) (footage : Seconds) :
    ofTokens us footage = ofTokens ts footage := by
  rw [ofTokens, h, ofTokens]

end Cut

/-- The two ways to the words of a transcript are one. Its cut, for which the
words are normalized twice, is that of its tokens as they are, and any other
spelling of the same speech has the same cut. -/
theorem Transcript.cut_of_any_spelling (t : Transcript) :
    t.words = Token.normalized t.tokens ∧
      t.cut = Cut.ofTokens t.tokens t.endOfFootage ∧
      ∀ ts us footage, Token.SameSpeech ts us →
        Cut.ofTokens us footage = Cut.ofTokens ts footage := by
  have hWords : t.words = Token.normalized t.tokens := Token.words_eq_normalized t.tokens
  refine ⟨hWords, ?_, fun ts us footage hSame => ?_⟩
  · rw [cut, hWords]
    exact Cut.ofTokens_eq_of_normalized (Token.normalized_normalized t.tokens) t.endOfFootage
  · exact Cut.ofTokens_eq_of_normalized hSame.normalized_eq footage

/-- Commas and brackets around words are another spelling of them, and a dash or dots by
themselves are not said at all, whatever their times are. -/
theorem Transcript.cut_of_any_spelling_raw :
    let raw : List Token :=
      [⟨" Slate,", ⟨0x3FF0000000000000⟩⟩, ⟨"--", Seconds.nan⟩,
        ⟨"mark", ⟨0x4000000000000000⟩⟩, ⟨"Done.", ⟨0x4008000000000000⟩⟩]
    let clean : List Token :=
      [⟨"Slate", ⟨0x3FF0000000000000⟩⟩, ⟨"(mark)", ⟨0x4000000000000000⟩⟩,
        ⟨"Done", ⟨0x4008000000000000⟩⟩, ⟨"…", Seconds.infinity⟩]
    let t : Transcript := ⟨raw, Seconds.zero⟩
    t.cut = Cut.ofTokens clean t.endOfFootage := by
  intro raw clean t
  obtain ⟨_, hCut, hSpelling⟩ := t.cut_of_any_spelling
  have hSame : Token.SameSpeech raw clean :=
    .word (by decide +kernel) rfl (.leave (by decide +kernel)
      (.word (by decide +kernel) rfl (.word (by decide +kernel) rfl
        (.insert (by decide +kernel) .nil))))
  rw [hCut, hSpelling raw clean t.endOfFootage hSame]

end RoughCut
