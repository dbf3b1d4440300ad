import Mathlib.Data.List.Infix
import RoughCut.Proofs.CutStages
import RoughCut.Proofs.Text.NormalForm

/-!
Faults are isolated. Ordinary speech, a stray `done`, an abandoned slate and a
window that is no command can be taken out of the tokens, wherever they are and
however many there are: the rest is cut into the same segments with the same
warnings, and there is nothing left to report as an error.
-/

namespace RoughCut

section MembersAt

variable {α : Type} {p : Nat → Prop}

open Classical in
/-- The members of a list that are at a place with the property. -/
noncomputable def membersAt (p : Nat → Prop) : List α → List α
  | [] => []
  | a :: l => (if p 0 then [a] else []) ++ membersAt (fun k => p (k + 1)) l

/-- What stands at the chosen places of two lists, one behind the other, is what stands
at them in the first and, moved by its length, in the second. -/
theorem membersAt_append (xs ys : List α) :
    membersAt p (xs ++ ys) = membersAt p xs ++ membersAt (fun k => p (k + xs.length)) ys := by
  induction xs generalizing p with
  | nil => rfl
  | cons a xs ih =>
      rw [List.cons_append, membersAt, membersAt, ih, List.append_assoc]
      simp only [List.length_cons, Nat.add_assoc]

theorem membersAt_of_all {l : List α} (h : ∀ k < l.length, p k) : membersAt p l = l := by
  induction l generalizing p with
  | nil => rfl
  | cons a l ih =>
      have hRest : ∀ k < l.length, p (k + 1) := fun k hk => h (k + 1) (Nat.succ_lt_succ hk)
      rw [membersAt, if_pos (h 0 (Nat.zero_lt_succ _)), ih hRest]
      rfl

theorem membersAt_subset (l : List α) : membersAt p l ⊆ l := by
  induction l generalizing p with
  | nil => exact List.Subset.refl _
  | cons a l ih =>
      rw [membersAt]
      refine List.append_subset.mpr ⟨?_, List.subset_cons_of_subset _ ih⟩
      split <;> simp

end MembersAt

namespace OpenWindow

/-- An open window becomes a window only through words and a `done` after them. -/
theorem exists_words_of_outcome {o : OpenWindow} {tokens : List Token} {w : Window}
    (h : o.outcome tokens = .inl w) :
    ∃ words done after, tokens = words ++ done :: after ∧
      (∀ t ∈ words, t.isCue = false) ∧ done.isDone = true ∧
      w = ⟨o.payload.reverse ++ words.map Token.text, o.start, done.start⟩ := by
  induction tokens generalizing o with
  | nil => cases h
  | cons t ts ih =>
      rcases t.slate_or_done_or_word with hSlate | hDone | hWord
      · rw [outcome_slate o ts hSlate] at h
        cases h
      · rw [outcome_done o ts hDone] at h
        exact ⟨[], t, ts, rfl, by simp, hDone, by simpa using (Sum.inl.inj h).symm⟩
      · rw [outcome_word o ts hWord] at h
        obtain ⟨words, done, after, rfl, hWords, hDone, hWindow⟩ := ih h
        exact ⟨t :: words, done, after, rfl, List.forall_mem_cons.mpr ⟨hWord, hWords⟩, hDone,
          by simpa [hear] using hWindow⟩

end OpenWindow

namespace Token

/-- A slate that becomes a window begins one. -/
theorem exists_isWindow_of_outcome {t : Token} {ts : List Token} {w : Window}
    (hSlate : t.isSlate = true) (h : OpenWindow.outcome ⟨t.start, []⟩ ts = .inl w) :
    ∃ window, window <+: t :: ts ∧ IsWindow window w := by
  obtain ⟨words, done, after, rfl, hWords, hDone, rfl⟩ := OpenWindow.exists_words_of_outcome h
  exact ⟨t :: (words ++ [done]), ⟨after, by simp⟩, .intro hSlate hWords hDone⟩

/-- The only slate of a window is its first token. A second one would have left the
first without an end. -/
theorem IsWindow.isSlate_iff {tokens : List Token} {w : Window} (h : IsWindow tokens w)
    {k : Nat} {t : Token} (hAt : tokens[k]? = some t) : t.isSlate = true ↔ k = 0 := by
  obtain @⟨slate, done, words, hSlate, hWords, hDone⟩ := h
  cases k with
  | zero => simp_all
  | succ k =>
      have hOther := isSlate_of_mem_concat hWords hDone t (List.mem_of_getElem? hAt)
      simp [hOther]

/-- A window ends with its first `done`, so that no window begins another. -/
theorem IsWindow.eq_of_prefix {xs ys : List Token} {v w : Window} (hxs : IsWindow xs v)
    (hys : IsWindow ys w) (h : xs <+: ys) : xs = ys := by
  obtain @⟨slate, done, words, hSlate, hWords, hDone⟩ := hxs
  obtain @⟨slate', done', words', hSlate', hWords', hDone'⟩ := hys
  obtain ⟨rfl, hRest⟩ := List.cons_prefix_cons.mp h
  rcases List.prefix_concat_iff.mp hRest with hSame | hInner
  · rw [hSame]
  · have hMem : done ∈ words' := hInner.subset (by simp)
    have hWord := hWords' done hMem
    rw [isCue_of_isDone hDone] at hWord
    cases hWord

/-- The tokens are a whole window, and its words make a command. -/
def IsRecognized (window : List Token) : Prop :=
  ∃ w, IsWindow window w ∧ w.command?.isSome = true

/-- The token at this place belongs to a recognized window among the tokens. -/
def InRecognized (tokens : List Token) (place : Nat) : Prop :=
  ∃ first window, first ≤ place ∧ place < first + window.length ∧
    window <+: tokens.drop first ∧ IsRecognized window

/-- The tokens without those that belong to no recognized window. -/
noncomputable def recognized (tokens : List Token) : List Token :=
  membersAt (InRecognized tokens) tokens

theorem IsRecognized.length_pos {window : List Token} (h : IsRecognized window) :
    0 < window.length := by
  obtain ⟨_, ⟨⟩, _⟩ := h
  exact Nat.zero_lt_succ _

/-- Two recognized windows that begin with the same token are one, for the first word
that closes it ends both. -/
theorem IsRecognized.eq_of_prefix {xs ys tokens : List Token} (hxs : IsRecognized xs)
    (hys : IsRecognized ys) (hFirst : xs <+: tokens) (hSecond : ys <+: tokens) : xs = ys := by
  obtain ⟨v, hxs, _⟩ := hxs
  obtain ⟨w, hys, _⟩ := hys
  rcases List.prefix_or_prefix_of_prefix hFirst hSecond with h | h
  · exact hxs.eq_of_prefix hys h
  · exact (hys.eq_of_prefix hxs h).symm

/-- A slate inside of a window would have to be its first token. -/
theorem IsRecognized.eq_zero_of_prefix_drop {outer inner : List Token}
    (hOuter : IsRecognized outer) (hInner : IsRecognized inner) {first : Nat} {after : List Token}
    (hInside : first < outer.length) (h : inner <+: (outer ++ after).drop first) : first = 0 := by
  obtain ⟨_, hWindow, _⟩ := hOuter
  obtain ⟨_, @⟨slate, done, words, hSlate, _, _⟩, _⟩ := hInner
  obtain ⟨rest, hRest⟩ := h
  have hAt : (outer ++ after)[first + 0]? = some slate := by
    rw [← List.getElem?_drop, ← hRest]
    rfl
  rw [Nat.add_zero, List.getElem?_append_left hInside] at hAt
  exact (hWindow.isSlate_iff hAt).mp hSlate

/-- Past a recognized window, the recognized windows are those of the tokens
after it, since none begins inside of it. -/
theorem inRecognized_append_iff {window : List Token} (h : IsRecognized window)
    (after : List Token) (place : Nat) :
    InRecognized (window ++ after) (place + window.length) ↔ InRecognized after place := by
  constructor
  · rintro ⟨first, inner, hFirst, hLast, hPrefix, hInner⟩
    rcases Nat.lt_or_ge first window.length with hInside | hOutside
    · obtain rfl := h.eq_zero_of_prefix_drop hInner hInside hPrefix
      obtain rfl := hInner.eq_of_prefix h hPrefix ⟨after, rfl⟩
      omega
    · refine ⟨first - window.length, inner, by omega, by omega, ?_, hInner⟩
      rwa [List.drop_append, List.drop_of_length_le hOutside, List.nil_append] at hPrefix
  · rintro ⟨first, inner, hFirst, hLast, hPrefix, hInner⟩
    refine ⟨window.length + first, inner, by omega, by omega, ?_, hInner⟩
    rwa [List.drop_length_add_append]

/-- A recognized window is kept whole. -/
theorem recognized_window {window : List Token} (h : IsRecognized window) (after : List Token) :
    recognized (window ++ after) = window ++ recognized after := by
  have hAll : ∀ k < window.length, InRecognized (window ++ after) k :=
    fun k hk => ⟨0, window, Nat.zero_le k, by omega, ⟨after, rfl⟩, h⟩
  rw [recognized, membersAt_append, membersAt_of_all hAll]
  simp only [inRecognized_append_iff h]
  rfl

/-- A token that begins no recognized window is not kept, and the tokens after
it are read as they would be without it. -/
theorem recognized_skip {t : Token} {ts : List Token}
    (h : ∀ window, window <+: t :: ts → ¬ IsRecognized window) :
    recognized (t :: ts) = recognized ts := by
  have hFirst : ¬ InRecognized (t :: ts) 0 := by
    rintro ⟨first, window, hPlace, _, hPrefix, hWindow⟩
    obtain rfl : first = 0 := by omega
    exact h window hPrefix hWindow
  have hLater (k : Nat) : InRecognized (t :: ts) (k + 1) ↔ InRecognized ts k := by
    constructor
    · rintro ⟨first, window, hPlace, hLast, hPrefix, hWindow⟩
      cases first with
      | zero => exact absurd hWindow (h window hPrefix)
      | succ first => exact ⟨first, window, by omega, by omega, hPrefix, hWindow⟩
    · rintro ⟨first, window, hPlace, hLast, hPrefix, hWindow⟩
      exact ⟨first + 1, window, by omega, by omega, hPrefix, hWindow⟩
  rw [recognized, membersAt, if_neg hFirst, List.nil_append]
  simp only [hLater]
  rfl

/-- Tokens are read window by recognized window, and token by token where there
is none. -/
theorem recognizedInduction {motive : List Token → Prop} (nil : motive [])
    (window : ∀ window after, IsRecognized window → motive after → motive (window ++ after))
    (skip : ∀ t ts, (∀ window, window <+: t :: ts → ¬ IsRecognized window) → motive ts →
      motive (t :: ts)) (tokens : List Token) : motive tokens := by
  induction hLength : tokens.length using Nat.strong_induction_on generalizing tokens with
  | _ length ih =>
      cases tokens with
      | nil => exact nil
      | cons t ts =>
          by_cases hBegins : ∃ found, found <+: t :: ts ∧ IsRecognized found
          · obtain ⟨found, ⟨after, hTokens⟩, hFound⟩ := hBegins
            have hShorter := congrArg List.length hTokens
            have hPositive := hFound.length_pos
            rw [List.length_append] at hShorter
            rw [← hTokens]
            exact window found after hFound (ih after.length (by omega) after rfl)
          · refine skip t ts (fun found hPrefix hFound => hBegins ⟨found, hPrefix, hFound⟩) ?_
            exact ih ts.length (by rw [← hLength]; exact Nat.lt_succ_self _) ts rfl

/-- The windows of what is kept are those that are commands, and no slate is
left that opens no window. -/
theorem outcomes_recognized (tokens : List Token) :
    outcomes (recognized tokens) =
      ((windows tokens).filter fun w => w.command?.isSome).map Sum.inl := by
  induction tokens using recognizedInduction with
  | nil => rfl
  | window found after hFound ih =>
      rw [recognized_window hFound]
      obtain ⟨w, hWindow, hCommand⟩ := hFound
      rw [hWindow.outcomes_append, ih, hWindow.windows_append]
      simp [hCommand]
  | skip t ts hNone ih =>
      rw [recognized_skip hNone, ih]
      cases hSlate : t.isSlate with
      | false => simp [windows, outcomes, hSlate]
      | true =>
          rw [windows.eq_1 (t :: ts), outcomes_slate hSlate]
          cases hOutcome : OpenWindow.outcome ⟨t.start, []⟩ ts with
          | inr i => rfl
          | inl w =>
              obtain ⟨found, hPrefix, hWindow⟩ := exists_isWindow_of_outcome hSlate hOutcome
              have hCommand : w.command?.isSome = false :=
                Bool.eq_false_iff.mpr fun hSome => hNone found hPrefix ⟨w, hWindow, hSome⟩
              simp [windows, hCommand]

/-- Of the windows only those are left that give a command, in their order. All that was
taken away lay outside of these. -/
theorem windows_recognized (tokens : List Token) :
    windows (recognized tokens) = (windows tokens).filter fun w => w.command?.isSome := by
  rw [windows, outcomes_recognized, List.filterMap_map]
  exact List.filterMap_some

/-- No slate is left without an end. What is kept of a transcript are whole windows,
each from its slate to its `done`. -/
theorem malformed_recognized (tokens : List Token) : malformed (recognized tokens) = [] := by
  rw [malformed, outcomes_recognized, List.filterMap_map]
  exact List.filterMap_eq_nil_iff.mpr fun _ _ => rfl

/-- What is kept of tokens in normal form is in normal form. -/
theorem normalized_recognized (tokens : List Token) :
    normalized (recognized (normalized tokens)) = recognized (normalized tokens) :=
  normalized_eq_self fun _ hMem => isNormal_of_mem_normalized (membersAt_subset _ hMem)

end Token

namespace Cut

variable (tokens : List Token) (footage : Seconds)

/-- All commands are left, for each of them has come from a recognized window. -/
theorem commands_recognized :
    commands (Token.recognized (Token.normalized tokens)) = commands tokens := by
  rw [commands_eq, commands_eq, Token.normalized_recognized, Token.windows_recognized,
    List.filterMap_filter]
  refine List.filterMap_congr fun w _ => ?_
  cases w.command? <;> rfl

/-- No errors are left, neither about malformed windows nor about payloads. -/
theorem errors_recognized :
    (ofTokens (Token.recognized (Token.normalized tokens)) footage).report.errors = [] := by
  rw [errors_ofTokens, Token.normalized_recognized, Token.malformed_recognized,
    Token.windows_recognized, List.nil_append]
  refine List.filterMap_eq_nil_iff.mpr fun w hMem => ?_
  exact Window.issue?_eq_none_iff.mpr (List.mem_filter.mp hMem).2

/-- A cut depends on recognized windows alone. Taking all else out of the tokens
changes no segment and no warning, and takes every error away. -/
theorem ofTokens_recognized :
    ofTokens (Token.recognized (Token.normalized tokens)) footage =
      ⟨(ofTokens tokens footage).segments, ⟨[], (ofTokens tokens footage).report.warnings⟩⟩ := by
  have hCommands := commands_recognized tokens
  rw [← segments_eq_of_commands footage hCommands, ← warnings_eq_of_commands footage hCommands,
    ← errors_recognized tokens footage]

end Cut

end RoughCut
