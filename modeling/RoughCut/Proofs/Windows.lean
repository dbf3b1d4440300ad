import Mathlib.Data.List.Basic
import Mathlib.Data.List.Induction
import Mathlib.Data.List.Perm.Basic
import RoughCut.Window

/-!
What a pass over tokens finds, said without the pass. The first cue after a
slate settles what becomes of it: a `done` makes a window of it, and another
slate or the end of the tokens an issue. `scan_eq` says that a scan finds this
for every slate, and nothing else.
-/

namespace RoughCut

/-- Where each member of a list has one of two images, which keeps its key, the
keys of the list are those of the images. -/
theorem keys_perm_of_split {α β γ κ : Type} {f : α → Option β} {g : α → Option γ}
    {key : α → κ} {left : β → κ} {right : γ → κ}
    (h : ∀ a, (∃ b, f a = some b ∧ g a = none ∧ left b = key a) ∨
      (∃ c, g a = some c ∧ f a = none ∧ right c = key a)) (l : List α) :
    (l.map key).Perm ((l.filterMap f).map left ++ (l.filterMap g).map right) := by
  induction l with
  | nil => exact List.Perm.refl _
  | cons a l ih =>
      rcases h a with ⟨b, hf, hg, hKey⟩ | ⟨c, hg, hf, hKey⟩
      · simpa [hf, hg, hKey] using ih
      · simp only [List.map_cons, List.filterMap_cons, hf, hg, hKey]
        exact (ih.cons _).trans List.perm_middle.symm

namespace Token

/-- One word opens a window and another closes it, so no token does both. -/
theorem isDone_of_isSlate {t : Token} (h : t.isSlate = true) : t.isDone = false := by
  rw [isSlate, Text.sameLetters, beq_iff_eq] at h
  rw [isDone, Text.sameLetters, h]
  decide

theorem isSlate_of_isDone {t : Token} (h : t.isDone = true) : t.isSlate = false := by
  cases hSlate : t.isSlate with
  | false => rfl
  | true => rw [isDone_of_isSlate hSlate] at h; cases h

theorem isCue_of_isSlate {t : Token} (h : t.isSlate = true) : t.isCue = true := by
  rw [isCue, h, Bool.true_or]

theorem isCue_of_isDone {t : Token} (h : t.isDone = true) : t.isCue = true := by
  rw [isCue, h, Bool.or_true]

theorem isSlate_of_not_isCue {t : Token} (h : t.isCue = false) : t.isSlate = false :=
  (Bool.or_eq_false_iff.mp h).1

/-- A token opens a window, or it closes one, or it is a word like any other. -/
theorem slate_or_done_or_word (t : Token) :
    t.isSlate = true ∨ t.isDone = true ∨ t.isCue = false := by
  cases hSlate : t.isSlate with
  | true => exact Or.inl rfl
  | false =>
      cases hDone : t.isDone with
      | true => exact Or.inr (Or.inl rfl)
      | false => exact Or.inr (Or.inr (by rw [isCue, hSlate, hDone, Bool.or_false]))

/-- The first cue among the tokens. -/
def nextCue? (tokens : List Token) : Option Token :=
  tokens.find? isCue

/-- The words before the first cue. -/
def wordsToCue (tokens : List Token) : List String :=
  (tokens.takeWhile fun t => !t.isCue).map text

/-- What ends the words that are listened to is the first cue, at the very next token if
that is one. -/
theorem nextCue?_cons_of_isCue {t : Token} (h : t.isCue = true) (ts : List Token) :
    nextCue? (t :: ts) = some t :=
  List.find?_cons_of_pos h

theorem nextCue?_cons_of_not {t : Token} (h : t.isCue = false) (ts : List Token) :
    nextCue? (t :: ts) = nextCue? ts :=
  List.find?_cons_of_neg (by simp [h])

end Token

namespace OpenWindow

/-- What the tokens after it make of an open window: a window if a `done` is
the first cue among them, and else an issue. -/
def outcome (w : OpenWindow) (tokens : List Token) : Window ⊕ Issue :=
  match Token.nextCue? tokens with
  | none => .inr (Scan.unfinished w)
  | some c =>
    if c.isDone then .inl ⟨w.payload.reverse ++ Token.wordsToCue tokens, w.start, c.start⟩
    else .inr (Scan.interrupted w c.start)

def hear (w : OpenWindow) (word : String) : OpenWindow :=
  { w with payload := word :: w.payload }

variable (w : OpenWindow) {t : Token} (ts : List Token)

/-- Where the transcript ends, an open window is left without an end. -/
theorem outcome_nil : w.outcome [] = .inr (Scan.unfinished w) := rfl

/-- A second slate leaves the first without an end, whatever has been said in between.
What becomes of the second is told by the tokens after it. -/
theorem outcome_slate (h : t.isSlate = true) :
    w.outcome (t :: ts) = .inr (Scan.interrupted w t.start) := by
  simp [outcome, Token.nextCue?_cons_of_isCue (Token.isCue_of_isSlate h),
    Token.isDone_of_isSlate h]

/-- At the word that closes it, a window has all words that were heard, in the order in
which they were said. -/
theorem outcome_done (h : t.isDone = true) :
    w.outcome (t :: ts) = .inl ⟨w.payload.reverse, w.start, t.start⟩ := by
  have hCue := Token.isCue_of_isDone h
  simp [outcome, Token.nextCue?_cons_of_isCue hCue, h, Token.wordsToCue, hCue]

theorem outcome_word (h : t.isCue = false) :
    w.outcome (t :: ts) = (w.hear t.text).outcome ts := by
  simp [outcome, hear, Token.nextCue?_cons_of_not h, Token.wordsToCue, h, Scan.unfinished,
    Scan.interrupted]

/-- Words are added to an open window, and what comes after them decides. -/
theorem outcome_words {words : List Token} (h : ∀ t ∈ words, t.isCue = false) :
    w.outcome (words ++ ts) =
      outcome { w with payload := (words.map Token.text).reverse ++ w.payload } ts := by
  induction words generalizing w with
  | nil => rfl
  | cons t words ih =>
      obtain ⟨hWord, hWords⟩ := List.forall_mem_cons.mp h
      rw [List.cons_append, outcome_word w _ hWord, ih _ hWords]
      simp [hear]

/-- How a window ends is settled by the first cue after its slate. What is said later
does not change that. -/
theorem outcome_append {xs : List Token} (h : ∃ c ∈ xs, c.isCue = true) (ys : List Token) :
    w.outcome (xs ++ ys) = w.outcome xs := by
  induction xs generalizing w with
  | nil => simp at h
  | cons t xs ih =>
      rw [List.cons_append]
      rcases t.slate_or_done_or_word with hSlate | hDone | hWord
      · rw [outcome_slate w _ hSlate, outcome_slate w _ hSlate]
      · rw [outcome_done w _ hDone, outcome_done w _ hDone]
      · rw [outcome_word w _ hWord, outcome_word w _ hWord]
        exact ih _ (by simpa [hWord] using h)

/-- Either way the time of the slate is kept. -/
theorem start_outcome : (w.outcome ts).elim Window.start Issue.start = w.start := by
  unfold outcome
  split
  · rfl
  · split <;> rfl

/-- A window that does not end well is reported as malformed, and never for another
reason. -/
theorem kind_of_outcome {i : Issue} (h : w.outcome ts = .inr i) : i.kind = .malformedMarker := by
  unfold outcome at h
  split at h
  · exact Sum.inr.inj h ▸ rfl
  · split at h
    · cases h
    · exact Sum.inr.inj h ▸ rfl

end OpenWindow

namespace Token

/-- What becomes of the slates of a token sequence, in their order. -/
def outcomes : List Token → List (Window ⊕ Issue)
  | [] => []
  | t :: ts =>
    if t.isSlate then OpenWindow.outcome ⟨t.start, []⟩ ts :: outcomes ts else outcomes ts

/-- The windows of a token sequence. -/
def windows (tokens : List Token) : List Window :=
  (outcomes tokens).filterMap Sum.getLeft?

/-- The issues of a token sequence, one for each slate that opens no window. -/
def malformed (tokens : List Token) : List Issue :=
  (outcomes tokens).filterMap Sum.getRight?

/-- Each slate opens a window of its own. How that ends is one outcome, and the others
are those of what follows. -/
theorem outcomes_slate {t : Token} (h : t.isSlate = true) (ts : List Token) :
    outcomes (t :: ts) = OpenWindow.outcome ⟨t.start, []⟩ ts :: outcomes ts := by
  rw [outcomes, if_pos h]

/-- What is said without a slate, outside a window, leads to nothing at all. -/
theorem outcomes_speech {speech : List Token} (h : ∀ t ∈ speech, t.isSlate = false)
    (ts : List Token) : outcomes (speech ++ ts) = outcomes ts := by
  induction speech with
  | nil => rfl
  | cons t speech ih =>
      obtain ⟨hFirst, hRest⟩ := List.forall_mem_cons.mp h
      rw [List.cons_append, outcomes, if_neg (by simp [hFirst]), ih hRest]

end Token

namespace Scan

/-- Where the pass stands, every open or coming slate has one outcome. The
windows and issues found so far come first. -/
theorem found_foldl_step (tokens : List Token) (s : Scan) :
    let outcomes := (s.opened.map (·.outcome tokens)).toList ++ Token.outcomes tokens
    (tokens.foldl step s).windows.reverse =
        s.windows.reverse ++ outcomes.filterMap Sum.getLeft? ∧
      (tokens.foldl step s).allIssues =
        s.issues.reverse ++ outcomes.filterMap Sum.getRight? := by
  induction tokens generalizing s with
  | nil => cases hOpen : s.opened <;>
      simp [allIssues, hOpen, OpenWindow.outcome_nil, Token.outcomes]
  | cons t ts ih =>
      rw [List.foldl_cons]
      obtain ⟨hWindows, hIssues⟩ := ih (s.step t)
      simp only [hWindows, hIssues]
      rcases t.slate_or_done_or_word with hSlate | hDone | hWord
      · cases hOpen : s.opened <;>
          simp [step, Token.outcomes, hSlate, hOpen, OpenWindow.outcome_slate,
            List.filterMap_cons]
      · have hSlate := Token.isSlate_of_isDone hDone
        cases hOpen : s.opened <;>
          simp [step, Token.outcomes, hSlate, hDone, hOpen, OpenWindow.outcome_done,
            List.filterMap_cons]
      · obtain ⟨hSlate, hDone⟩ := Bool.or_eq_false_iff.mp hWord
        cases hOpen : s.opened <;>
          simp [step, Token.outcomes, hSlate, hDone, hWord, hOpen, OpenWindow.outcome_word,
            OpenWindow.hear]

end Scan

/-- A scan finds the windows of the tokens, and reports their other slates. -/
theorem scan_eq (tokens : List Token) (report : Report) :
    scan tokens report = (Token.windows tokens, report.addErrors (Token.malformed tokens)) := by
  obtain ⟨hWindows, hIssues⟩ := Scan.found_foldl_step tokens Scan.initial
  unfold scan
  simp only [hWindows, hIssues]
  rfl

namespace Token

/-- There is one outcome for each slate, at its time and in the order of the slates.
None is lost and none is made up. -/
theorem start_outcomes (tokens : List Token) :
    (outcomes tokens).map (Sum.elim Window.start Issue.start) =
      (tokens.filter isSlate).map start := by
  induction tokens with
  | nil => rfl
  | cons t ts ih =>
      cases hSlate : t.isSlate with
      | false => simpa [outcomes, hSlate] using ih
      | true => simp [outcomes, hSlate, ih, OpenWindow.start_outcome]

/-- Every slate opens a window or is reported as malformed. None is counted twice, and
none is lost. -/
theorem slates_perm (tokens : List Token) :
    ((tokens.filter isSlate).map start).Perm
      ((windows tokens).map Window.start ++ (malformed tokens).map Issue.start) := by
  rw [← start_outcomes]
  refine keys_perm_of_split (fun o => ?_) (outcomes tokens)
  cases o with
  | inl w => exact Or.inl ⟨w, rfl, rfl, rfl⟩
  | inr i => exact Or.inr ⟨i, rfl, rfl, rfl⟩

theorem exists_slate_of_mem_windows {tokens : List Token} {w : Window} (h : w ∈ windows tokens) :
    ∃ t ∈ tokens, t.isSlate = true ∧ t.start = w.start := by
  have hStart := (slates_perm tokens).mem_iff.mpr
    (List.mem_append_left _ (List.mem_map_of_mem h))
  obtain ⟨t, hMem, hSame⟩ := List.mem_map.mp hStart
  obtain ⟨hToken, hSlate⟩ := List.mem_filter.mp hMem
  exact ⟨t, hToken, hSlate, hSame⟩

theorem kind_of_mem_malformed {tokens : List Token} {i : Issue} (h : i ∈ malformed tokens) :
    i.kind = .malformedMarker := by
  obtain ⟨o, hMem, hIssue⟩ := List.mem_filterMap.mp h
  obtain rfl := Sum.getRight?_eq_some_iff.mp hIssue
  induction tokens with
  | nil => cases hMem
  | cons t ts ih =>
      cases hSlate : t.isSlate with
      | false => simp_all [outcomes, malformed]
      | true =>
          rw [outcomes_slate hSlate, List.mem_cons] at hMem
          rcases hMem with hHere | hLater
          · exact OpenWindow.kind_of_outcome _ _ hHere.symm
          · exact ih (List.mem_filterMap.mpr ⟨_, hLater, rfl⟩) hLater

/-- No window is open at the end of the tokens: the last cue among them, if
there is one, is a `done`. -/
def AllClosed (tokens : List Token) : Prop :=
  ∀ c ∈ (tokens.filter isCue).getLast?, c.isDone = true

instance (tokens : List Token) : Decidable (AllClosed tokens) :=
  inferInstanceAs (Decidable (∀ c ∈ (tokens.filter isCue).getLast?, c.isDone = true))

/-- A pass that starts with no window ends with none where all are closed, and only
there. -/
theorem allClosed_iff_opened (tokens : List Token) :
    AllClosed tokens ↔ (tokens.foldl Scan.step Scan.initial).opened = none := by
  induction tokens using List.reverseRecOn with
  | nil => exact ⟨fun _ => rfl, fun _ _ hLast => nomatch hLast⟩
  | append_singleton ts t ih =>
      rw [AllClosed, List.foldl_concat, List.filter_append, Scan.step]
      rcases t.slate_or_done_or_word with hSlate | hDone | hWord
      · simp [isCue_of_isSlate hSlate, isDone_of_isSlate hSlate, hSlate]
      · simp [isCue_of_isDone hDone, isSlate_of_isDone hDone, hDone]
      · obtain ⟨hSlate, hDone⟩ := Bool.or_eq_false_iff.mp hWord
        simpa [hWord, hSlate, hDone, AllClosed] using ih

theorem AllClosed.tail {t : Token} {ts : List Token} (h : AllClosed (t :: ts)) :
    AllClosed ts := by
  intro c hLast
  apply h
  cases hCue : t.isCue with
  | false => simpa [hCue] using hLast
  | true => simp_all [List.getLast?_cons]

/-- Where all windows are closed a slate is not the last cue. -/
theorem AllClosed.cue_after_slate {t : Token} {ts : List Token} (h : AllClosed (t :: ts))
    (hSlate : t.isSlate = true) : ∃ c ∈ ts, c.isCue = true := by
  by_contra hNone
  have hWords : ts.filter isCue = [] := by
    rw [List.filter_eq_nil_iff]
    exact fun c hc hCue => hNone ⟨c, hc, hCue⟩
  have hLast := h t (by simp [isCue_of_isSlate hSlate, hWords])
  rw [isDone_of_isSlate hSlate] at hLast
  cases hLast

/-- Where no window is open, a token sequence can be parted. -/
theorem AllClosed.outcomes_append {xs : List Token} (h : AllClosed xs) (ys : List Token) :
    outcomes (xs ++ ys) = outcomes xs ++ outcomes ys := by
  induction xs with
  | nil => rfl
  | cons t ts ih =>
      have hRest := ih h.tail
      cases hSlate : t.isSlate with
      | false => simpa [outcomes, hSlate] using hRest
      | true =>
          have hCue := h.cue_after_slate hSlate
          simp [outcomes, hSlate, hRest, OpenWindow.outcome_append _ hCue]

/-- Behind tokens that leave no window open the windows can be found in two parts. The
first part ends as if the transcript did. -/
theorem AllClosed.windows_append {xs : List Token} (h : AllClosed xs) (ys : List Token) :
    windows (xs ++ ys) = windows xs ++ windows ys := by
  rw [windows, h.outcomes_append, List.filterMap_append]
  rfl

/-- Behind tokens that leave no window open the slates without an end can be found in
two parts. -/
theorem AllClosed.malformed_append {xs : List Token} (h : AllClosed xs) (ys : List Token) :
    malformed (xs ++ ys) = malformed xs ++ malformed ys := by
  rw [malformed, h.outcomes_append, List.filterMap_append]
  rfl

/-- The tokens are a whole window: a slate, words that are no cues, and a
`done`. -/
inductive IsWindow : List Token → Window → Prop where
  | intro {slate done : Token} {words : List Token} (hSlate : slate.isSlate = true)
      (hWords : ∀ t ∈ words, t.isCue = false) (hDone : done.isDone = true) :
      IsWindow (slate :: (words ++ [done])) ⟨words.map text, slate.start, done.start⟩

theorem isSlate_of_mem_concat {words : List Token} {done : Token}
    (hWords : ∀ t ∈ words, t.isCue = false) (hDone : done.isDone = true) :
    ∀ t ∈ words ++ [done], t.isSlate = false := by
  intro t hMem
  rcases List.mem_append.mp hMem with hMem | hMem
  · exact isSlate_of_not_isCue (hWords t hMem)
  · exact List.mem_singleton.mp hMem ▸ isSlate_of_isDone hDone

/-- A whole window is found, and the tokens after it are read as they would be
without it. -/
theorem IsWindow.outcomes_append {tokens : List Token} {w : Window} (h : IsWindow tokens w)
    (ts : List Token) : outcomes (tokens ++ ts) = .inl w :: outcomes ts := by
  obtain @⟨slate, done, words, hSlate, hWords, hDone⟩ := h
  have hSpeech := isSlate_of_mem_concat hWords hDone
  rw [List.cons_append, outcomes_slate hSlate, outcomes_speech hSpeech, List.append_assoc,
    OpenWindow.outcome_words _ _ hWords, List.singleton_append, OpenWindow.outcome_done _ _ hDone]
  simp

/-- The tokens of one window before others add just that window to theirs. -/
theorem IsWindow.windows_append {tokens : List Token} {w : Window} (h : IsWindow tokens w)
    (ts : List Token) : windows (tokens ++ ts) = w :: windows ts := by
  rw [windows, h.outcomes_append]
  rfl

/-- The tokens of one window before others add no slate without an end. -/
theorem IsWindow.malformed_append {tokens : List Token} {w : Window} (h : IsWindow tokens w)
    (ts : List Token) : malformed (tokens ++ ts) = malformed ts := by
  rw [malformed, h.outcomes_append]
  rfl

end Token

end RoughCut
