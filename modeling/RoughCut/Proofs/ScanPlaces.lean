import RoughCut.Proofs.Windows

/-!
What a scan finds, by the places of the tokens. The first cue after a slate is
at one place or at none. A window is what lies between a slate and this cue if
it is a `done`, and otherwise the slate is reported. A scan gives every such
window and every such slate once, in the order of the tokens.
-/

namespace RoughCut

/-- Images of numbers stand in the order of these numbers, and every number that
has an image is among them. -/
theorem exists_places_filterMap {β : Type} {f : Nat → Option β} {R : Nat → β → Prop} {n : Nat}
    (h : ∀ i b, f i = some b ↔ R i b) (hBound : ∀ i b, R i b → i < n) :
    ∃ places : List Nat, places.Pairwise (· < ·) ∧ (∀ i, i ∈ places ↔ ∃ b, R i b) ∧
      List.Forall₂ R places ((List.range n).filterMap f) := by
  refine ⟨(List.range n).filter fun i => (f i).isSome, List.pairwise_lt_range.filter _,
    fun i => ?_, ?_⟩
  · simp only [List.mem_filter, List.mem_range, Option.isSome_iff_exists, h]
    constructor
    · rintro ⟨-, hImage⟩
      exact hImage
    · rintro ⟨b, hImage⟩
      exact ⟨hBound i b hImage, b, hImage⟩
  · induction List.range n with
    | nil => exact .nil
    | cons i l ih =>
        cases hImage : f i with
        | none => simpa [hImage] using ih
        | some b => simpa [hImage] using ⟨(h i b).mp hImage, ih⟩

namespace OpenWindow

variable (w : OpenWindow) {ts : List Token} {c : Token}

/-- Where no cue follows, the window is left open at the end of the transcript. -/
theorem outcome_of_none (h : Token.nextCue? ts = none) :
    w.outcome ts = .inr (Scan.unfinished w) := by
  simp only [outcome, h]

theorem outcome_of_slate (h : Token.nextCue? ts = some c) (hSlate : c.isSlate = true) :
    w.outcome ts = .inr (Scan.interrupted w c.start) := by
  simp [outcome, h, Token.isDone_of_isSlate hSlate]

/-- Where a done is the next cue, the window has the words up to it. -/
theorem outcome_of_done (h : Token.nextCue? ts = some c) (hDone : c.isDone = true) :
    w.outcome ts = .inl ⟨w.payload.reverse ++ Token.wordsToCue ts, w.start, c.start⟩ := by
  simp only [outcome, h, hDone, if_true]

end OpenWindow

namespace Token

variable {tokens : List Token} {i j k : Nat} {t : Token}

/-- No cue is at a place strictly between the two. -/
def NoCueBetween (tokens : List Token) (i j : Nat) : Prop :=
  ∀ k t, i < k → k < j → tokens[k]? = some t → t.isCue = false

theorem NoCueBetween.le_of_isCue (h : NoCueBetween tokens i j) (hAfter : i < k)
    (hAt : tokens[k]? = some t) (hCue : t.isCue = true) : j ≤ k := by
  refine Nat.not_lt.mp fun hBefore => ?_
  rw [h k t hAfter hBefore hAt] at hCue
  cases hCue

/-- The tokens from a slate at the first place to a `done` at the second, with no
cue between them, are this window. -/
inductive IsClosed (tokens : List Token) : Nat × Nat → Window → Prop where
  | intro {i j : Nat} {slate done : Token} (hBefore : i < j)
      (hSlateAt : tokens[i]? = some slate) (hSlate : slate.isSlate = true)
      (hDoneAt : tokens[j]? = some done) (hDone : done.isDone = true)
      (hBetween : NoCueBetween tokens i j) :
      IsClosed tokens (i, j) ⟨((tokens.take j).drop (i + 1)).map text, slate.start, done.start⟩

/-- The slate at this place is not closed, and this is the issue for it: the next
cue is another slate, or there is no cue any more. -/
inductive IsUnclosed (tokens : List Token) (i : Nat) : Issue → Prop where
  | interrupted {j : Nat} {slate next : Token} (hBefore : i < j)
      (hSlateAt : tokens[i]? = some slate) (hSlate : slate.isSlate = true)
      (hNextAt : tokens[j]? = some next) (hNext : next.isSlate = true)
      (hBetween : NoCueBetween tokens i j) :
      IsUnclosed tokens i ⟨.malformedMarker, slate.start,
        "slate interrupted by another slate at " ++ next.start.message ++ " before done"⟩
  | unfinished {slate : Token} (hSlateAt : tokens[i]? = some slate)
      (hSlate : slate.isSlate = true) (hRest : NoCueBetween tokens i tokens.length) :
      IsUnclosed tokens i ⟨.malformedMarker, slate.start,
        "slate has no matching done before the end of the transcript"⟩

/-- The place of the first cue after a place, past all tokens if there is none. -/
def cueAfter (tokens : List Token) (i : Nat) : Nat :=
  i + 1 + (tokens.drop (i + 1)).findIdx isCue

/-- The next cue is looked for behind the given place, so it is never at that place. -/
theorem lt_cueAfter (tokens : List Token) (i : Nat) : i < cueAfter tokens i := by
  unfold cueAfter
  omega

/-- At the place of the next cue is the next cue, and where there is none the place is
behind the last token. -/
theorem getElem?_cueAfter (tokens : List Token) (i : Nat) :
    tokens[cueAfter tokens i]? = nextCue? (tokens.drop (i + 1)) := by
  rw [nextCue?, List.find?_eq_getElem?_findIdx, List.getElem?_drop, cueAfter]

theorem isCue_cueAfter (h : tokens[cueAfter tokens i]? = some t) : t.isCue = true := by
  rw [getElem?_cueAfter] at h
  exact List.find?_some h

/-- The next cue is the first. No other lies between the given place and its own. -/
theorem noCueBetween_cueAfter (tokens : List Token) (i : Nat) :
    NoCueBetween tokens i (cueAfter tokens i) := by
  intro k t hAfter hBefore hAt
  have hPlace : k - (i + 1) < (tokens.drop (i + 1)).findIdx isCue := by
    unfold cueAfter at hBefore
    omega
  have hSame : i + 1 + (k - (i + 1)) = k := by omega
  have hWord := List.not_of_lt_findIdx hPlace
  simp only [List.getElem_drop, hSame] at hWord
  obtain ⟨_, rfl⟩ := List.getElem?_eq_some_iff.mp hAt
  exact hWord

/-- A cue with none before it is the first one. -/
theorem cueAfter_eq (hBefore : i < j) (hAt : tokens[j]? = some t) (hCue : t.isCue = true)
    (hBetween : NoCueBetween tokens i j) : cueAfter tokens i = j := by
  have hLe := (noCueBetween_cueAfter tokens i).le_of_isCue hBefore hAt hCue
  obtain ⟨hLength, -⟩ := List.getElem?_eq_some_iff.mp hAt
  have hFirst := List.getElem?_eq_getElem (Nat.lt_of_le_of_lt hLe hLength)
  have hGe := hBetween.le_of_isCue (lt_cueAfter tokens i) hFirst (isCue_cueAfter hFirst)
  exact Nat.le_antisymm hLe hGe

/-- What becomes of the slate at this place, if one is there. -/
def outcomeAt? (tokens : List Token) (i : Nat) : Option (Window ⊕ Issue) :=
  (tokens[i]?.filter isSlate).map fun slate =>
    OpenWindow.outcome ⟨slate.start, []⟩ (tokens.drop (i + 1))

/-- What comes of a scan can be told place by place. A slate at a place gives one
outcome, and every other token gives none. -/
theorem outcomes_eq_filterMap (tokens : List Token) :
    outcomes tokens = (List.range tokens.length).filterMap (outcomeAt? tokens) := by
  induction tokens with
  | nil => rfl
  | cons t ts ih =>
      rw [List.length_cons, List.range_succ_eq_map, List.filterMap_cons, List.filterMap_map]
      have hLater : outcomeAt? (t :: ts) ∘ Nat.succ = outcomeAt? ts := rfl
      rw [hLater, ← ih]
      cases hSlate : t.isSlate <;> simp [outcomes, outcomeAt?, hSlate, Option.filter]

/-- The words that are heard are those strictly between the slate and the next cue. This
leads from the tokens that are left to places among all of them. -/
theorem wordsToCue_drop (tokens : List Token) (i : Nat) :
    wordsToCue (tokens.drop (i + 1)) =
      ((tokens.take (cueAfter tokens i)).drop (i + 1)).map text := by
  simp [wordsToCue, List.takeWhile_eq_take_findIdx_not, List.drop_take, cueAfter]

/-- A place has an outcome exactly if a slate is there, the one that is found in the
tokens that follow. -/
theorem outcomeAt?_eq_some_iff {o : Window ⊕ Issue} :
    outcomeAt? tokens i = some o ↔ ∃ slate, tokens[i]? = some slate ∧ slate.isSlate = true ∧
      OpenWindow.outcome ⟨slate.start, []⟩ (tokens.drop (i + 1)) = o := by
  simp [outcomeAt?, Option.filter_eq_some_iff, and_assoc]

/-- A window that is closed is closed by the next cue after its slate, so its slate
alone tells where it ends. -/
theorem IsClosed.cueAfter_eq {w : Window} (h : IsClosed tokens (i, j) w) :
    cueAfter tokens i = j := by
  cases h with
  | intro hBefore _ _ hDoneAt hDone hBetween =>
      exact Token.cueAfter_eq hBefore hDoneAt (isCue_of_isDone hDone) hBetween

/-- What lies between a slate and its done is what a scan finds at the place of the
slate. -/
theorem IsClosed.outcomeAt?_eq {w : Window} (h : IsClosed tokens (i, j) w) :
    outcomeAt? tokens i = some (.inl w) := by
  obtain rfl := h.cueAfter_eq
  cases h with
  | @intro _ _ slate _ _ hSlateAt hSlate hDoneAt hDone _ =>
      rw [getElem?_cueAfter] at hDoneAt
      refine outcomeAt?_eq_some_iff.mpr ⟨slate, hSlateAt, hSlate, ?_⟩
      rw [OpenWindow.outcome_of_done _ hDoneAt hDone, wordsToCue_drop]
      rfl

/-- A slate that is not closed is what a scan reports at its place. -/
theorem IsUnclosed.outcomeAt?_eq {issue : Issue} (h : IsUnclosed tokens i issue) :
    outcomeAt? tokens i = some (.inr issue) := by
  cases h with
  | @interrupted _ slate _ hBefore hSlateAt hSlate hNextAt hNext hBetween =>
      rw [← cueAfter_eq hBefore hNextAt (isCue_of_isSlate hNext) hBetween,
        getElem?_cueAfter] at hNextAt
      refine outcomeAt?_eq_some_iff.mpr ⟨slate, hSlateAt, hSlate, ?_⟩
      rw [OpenWindow.outcome_of_slate _ hNextAt hNext]
      rfl
  | @unfinished slate hSlateAt hSlate hRest =>
      have hNone : nextCue? (tokens.drop (i + 1)) = none := by
        rw [← getElem?_cueAfter, List.getElem?_eq_none_iff]
        refine Nat.not_lt.mp fun hLength => ?_
        have hAt := List.getElem?_eq_getElem hLength
        have hLe := hRest.le_of_isCue (lt_cueAfter tokens i) hAt (isCue_cueAfter hAt)
        exact Nat.not_le.mpr hLength hLe
      refine outcomeAt?_eq_some_iff.mpr ⟨slate, hSlateAt, hSlate, ?_⟩
      rw [OpenWindow.outcome_of_none _ hNone]
      rfl

/-- The next cue after a slate closes it or does not. -/
theorem isClosed_or_isUnclosed (hSlateAt : tokens[i]? = some t) (hSlate : t.isSlate = true) :
    (∃ w, IsClosed tokens (i, cueAfter tokens i) w) ∨ ∃ issue, IsUnclosed tokens i issue := by
  have hBetween := noCueBetween_cueAfter tokens i
  cases hNextAt : tokens[cueAfter tokens i]? with
  | none =>
      have hLength := List.getElem?_eq_none_iff.mp hNextAt
      exact Or.inr ⟨_, .unfinished hSlateAt hSlate fun k t hAfter hBefore =>
        hBetween k t hAfter (Nat.lt_of_lt_of_le hBefore hLength)⟩
  | some c =>
      rcases Bool.or_eq_true_iff.mp (isCue_cueAfter hNextAt) with hNext | hDone
      · exact Or.inr ⟨_, .interrupted (lt_cueAfter tokens i) hSlateAt hSlate hNextAt hNext hBetween⟩
      · exact Or.inl ⟨_, .intro (lt_cueAfter tokens i) hSlateAt hSlate hNextAt hDone hBetween⟩

/-- What becomes of a slate is a window if it is closed, and otherwise an issue. -/
theorem closed_or_unclosed_of_outcomeAt? {o : Window ⊕ Issue}
    (h : outcomeAt? tokens i = some o) :
    (∃ w, o = .inl w ∧ IsClosed tokens (i, cueAfter tokens i) w) ∨
      ∃ issue, o = .inr issue ∧ IsUnclosed tokens i issue := by
  obtain ⟨slate, hSlateAt, hSlate, -⟩ := outcomeAt?_eq_some_iff.mp h
  rcases isClosed_or_isUnclosed hSlateAt hSlate with ⟨w, hClosed⟩ | ⟨issue, hUnclosed⟩
  · exact Or.inl ⟨w, Option.some.inj (h.symm.trans hClosed.outcomeAt?_eq), hClosed⟩
  · exact Or.inr ⟨issue, Option.some.inj (h.symm.trans hUnclosed.outcomeAt?_eq), hUnclosed⟩

/-- The windows of a scan are those of the places, in the order of the places. -/
theorem windows_eq_filterMap (tokens : List Token) :
    windows tokens =
      (List.range tokens.length).filterMap fun i => (outcomeAt? tokens i).bind Sum.getLeft? := by
  rw [windows, outcomes_eq_filterMap, List.filterMap_filterMap]

theorem malformed_eq_filterMap (tokens : List Token) :
    malformed tokens =
      (List.range tokens.length).filterMap fun i => (outcomeAt? tokens i).bind Sum.getRight? := by
  rw [malformed, outcomes_eq_filterMap, List.filterMap_filterMap]

/-- A scan finds a window at a place exactly if the tokens from there to the next cue
are one. -/
theorem windowAt?_eq_some_iff {w : Window} :
    (outcomeAt? tokens i).bind Sum.getLeft? = some w ↔
      IsClosed tokens (i, cueAfter tokens i) w := by
  rw [Option.bind_eq_some_iff]
  constructor
  · rintro ⟨o, hOutcome, hWindow⟩
    rcases closed_or_unclosed_of_outcomeAt? hOutcome with ⟨v, rfl, hClosed⟩ | ⟨issue, rfl, -⟩
    · exact Option.some.inj hWindow ▸ hClosed
    · cases hWindow
  · intro h
    exact ⟨_, h.outcomeAt?_eq, rfl⟩

theorem issueAt?_eq_some_iff {issue : Issue} :
    (outcomeAt? tokens i).bind Sum.getRight? = some issue ↔ IsUnclosed tokens i issue := by
  rw [Option.bind_eq_some_iff]
  constructor
  · rintro ⟨o, hOutcome, hIssue⟩
    rcases closed_or_unclosed_of_outcomeAt? hOutcome with ⟨w, rfl, -⟩ | ⟨other, rfl, hUnclosed⟩
    · cases hIssue
    · exact Option.some.inj hIssue ▸ hUnclosed
  · intro h
    exact ⟨_, h.outcomeAt?_eq, rfl⟩

theorem IsClosed.lt_length {span : Nat × Nat} {w : Window} (h : IsClosed tokens span w) :
    span.1 < tokens.length := by
  cases h with
  | intro _ hSlateAt _ _ _ _ => exact (List.getElem?_eq_some_iff.mp hSlateAt).1

theorem IsUnclosed.lt_length {issue : Issue} (h : IsUnclosed tokens i issue) :
    i < tokens.length := by
  cases h with
  | interrupted _ hSlateAt _ _ _ _ => exact (List.getElem?_eq_some_iff.mp hSlateAt).1
  | unfinished hSlateAt _ _ => exact (List.getElem?_eq_some_iff.mp hSlateAt).1

/-- A slate after the one that opens a window is after the whole window. Otherwise it
would be a cue before the one that closes the window. -/
theorem IsClosed.stop_lt {p q : Nat × Nat} {v w : Window} (hFirst : IsClosed tokens p v)
    (hSecond : IsClosed tokens q w) (h : p.1 < q.1) : p.2 < q.1 := by
  cases hFirst with
  | intro _ _ _ hDoneAt hDone hBetween =>
      cases hSecond with
      | intro _ hSlateAt hSlate _ _ _ =>
          have hLe := hBetween.le_of_isCue h hSlateAt (isCue_of_isSlate hSlate)
          refine Nat.lt_of_le_of_ne hLe fun hSame => ?_
          subst hSame
          obtain rfl := Option.some.inj (hDoneAt.symm.trans hSlateAt)
          rw [isDone_of_isSlate hSlate] at hDone
          cases hDone

/-- The windows of the tokens are those between a slate and the `done` that
closes it. They do not overlap. -/
theorem exists_spans_windows (tokens : List Token) :
    ∃ spans : List (Nat × Nat), spans.Pairwise (fun p q => p.2 < q.1) ∧
      (∀ span, span ∈ spans ↔ ∃ w, IsClosed tokens span w) ∧
      List.Forall₂ (IsClosed tokens) spans (windows tokens) := by
  obtain ⟨places, hOrder, hPlaces, hWindows⟩ :=
    exists_places_filterMap (R := fun i => IsClosed tokens (i, cueAfter tokens i))
      (fun _ _ => windowAt?_eq_some_iff) fun _ _ h => h.lt_length
  refine ⟨places.map fun i => (i, cueAfter tokens i), ?_, fun span => ?_, ?_⟩
  · refine List.pairwise_map.mpr (hOrder.imp_of_mem fun hFirst hSecond hLt => ?_)
    obtain ⟨v, hv⟩ := (hPlaces _).mp hFirst
    obtain ⟨w, hw⟩ := (hPlaces _).mp hSecond
    exact hv.stop_lt hw hLt
  · simp only [List.mem_map, hPlaces]
    constructor
    · rintro ⟨i, hClosed, rfl⟩
      exact hClosed
    · rintro ⟨w, hClosed⟩
      have hStop := hClosed.cueAfter_eq
      exact ⟨span.1, ⟨w, by rwa [hStop]⟩, by rw [hStop]⟩
  · rw [windows_eq_filterMap]
    exact List.forall₂_map_left_iff.mpr hWindows

end Token

/-- A scan of tokens as they are gives one window for each slate that a `done`
closes, with the words and the times of this place, and adds one error for each
slate that is not closed. Both are in the order of the tokens, and what was in the
report before stays where it was. -/
theorem scan_by_places (tokens : List Token) (report : Report) :
    let found := scan tokens report
    (∃ spans : List (Nat × Nat), spans.Pairwise (fun p q => p.2 < q.1) ∧
      (∀ span, span ∈ spans ↔ ∃ w, Token.IsClosed tokens span w) ∧
      List.Forall₂ (Token.IsClosed tokens) spans found.1) ∧
    (∃ (places : List Nat) (issues : List Issue), places.Pairwise (· < ·) ∧
      (∀ place, place ∈ places ↔ ∃ issue, Token.IsUnclosed tokens place issue) ∧
      List.Forall₂ (Token.IsUnclosed tokens) places issues ∧
      found.2.errors = report.errors ++ issues) ∧
    found.2.warnings = report.warnings := by
  intro found
  have hFound : found = _ := scan_eq tokens report
  obtain ⟨places, hOrder, hPlaces, hIssues⟩ :=
    exists_places_filterMap (R := Token.IsUnclosed tokens)
      (fun _ _ => Token.issueAt?_eq_some_iff) fun _ _ h => h.lt_length
  rw [← Token.malformed_eq_filterMap] at hIssues
  rw [hFound]
  exact ⟨Token.exists_spans_windows tokens,
    ⟨places, Token.malformed tokens, hOrder, hPlaces, hIssues, rfl⟩, rfl⟩

end RoughCut
