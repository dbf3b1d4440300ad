import Mathlib.Data.List.Forall2
import RoughCut.Proofs.CutStages
import RoughCut.Proofs.Seconds.Order
import RoughCut.Proofs.Text.NormalForm

/-!
Other times for the same words. Two recordings are compared that say the same
and in which the slates come at times `x` and `f x`; all other times are free.
Where `f` keeps the order of the slates, the second cut is the first one with
`f` put on its times. So a cut takes from the tokens no time but those of
slates, and of these no more than their order decides what is built.
-/

namespace RoughCut

variable {f : Seconds → Seconds}

/-- The same word and, if it is a slate, at the time that `f` gives. -/
def Token.Retimed (f : Seconds → Seconds) (t u : Token) : Prop :=
  u.text = t.text ∧ (t.isSlate = true → u.start = f t.start)

def Window.Retimed (f : Seconds → Seconds) (v w : Window) : Prop :=
  w.payload = v.payload ∧ w.start = f v.start

def Issue.Retimed (f : Seconds → Seconds) (i j : Issue) : Prop :=
  j.kind = i.kind ∧ j.start = f i.start

def Command.Retimed (f : Seconds → Seconds) (c d : Command) : Prop :=
  d = { c with start := f c.start, stop := d.stop }

namespace Token

variable {t u : Token}

theorem Retimed.isSlate_eq (h : Retimed f t u) : u.isSlate = t.isSlate := by
  rw [isSlate, isSlate, h.1]

theorem Retimed.isDone_eq (h : Retimed f t u) : u.isDone = t.isDone := by
  rw [isDone, isDone, h.1]

theorem Retimed.isCue_eq (h : Retimed f t u) : u.isCue = t.isCue := by
  rw [isCue, isCue, h.isSlate_eq, h.isDone_eq]

/-- Tokens with the same words are the same words in normal form. Only the times of
slates have to be known for what follows. -/
theorem forall₂_normalized {ts us : List Token}
    (h : List.Forall₂ (fun t u => u.text = t.text ∧
      ∀ w ∈ t.normal?, w.isSlate = true → u.start = f t.start) ts us) :
    List.Forall₂ (Retimed f) (normalized ts) (normalized us) := by
  refine List.rel_filterMap ?_ h
  rintro t u ⟨hText, hStart⟩
  rw [normal?, normal?, hText]
  split
  · exact Option.Rel.none
  · next hWord =>
    refine Option.Rel.some ⟨rfl, fun hSlate => hStart _ ?_ hSlate⟩
    rw [normal?, if_neg hWord]
    rfl

end Token

/-- What the tokens make of an open window does not hang on when its words and
its `done` are said. -/
theorem OpenWindow.liftRel_outcome {v w : OpenWindow} (hPayload : w.payload = v.payload)
    (hStart : w.start = f v.start) {ts us : List Token}
    (h : List.Forall₂ (Token.Retimed f) ts us) :
    Sum.LiftRel (Window.Retimed f) (Issue.Retimed f) (v.outcome ts) (w.outcome us) := by
  induction h generalizing v w with
  | nil => exact .inr ⟨rfl, hStart⟩
  | @cons t u ts us ht _ ih =>
      rcases t.slate_or_done_or_word with hSlate | hDone | hWord
      · rw [outcome_slate v ts hSlate, outcome_slate w us (ht.isSlate_eq.trans hSlate)]
        exact .inr ⟨rfl, hStart⟩
      · rw [outcome_done v ts hDone, outcome_done w us (ht.isDone_eq.trans hDone)]
        exact .inl ⟨by rw [hPayload], hStart⟩
      · rw [outcome_word v ts hWord, outcome_word w us (ht.isCue_eq.trans hWord)]
        exact ih (by rw [hear, hear, ht.1, hPayload]) hStart

namespace Token

/-- Retimed tokens have windows with the same words and issues of the same kinds, at
retimed starts. Where a window ends may change, for only slates are known to be retimed.
-/
theorem forall₂_outcomes {ts us : List Token} (h : List.Forall₂ (Retimed f) ts us) :
    List.Forall₂ (Sum.LiftRel (Window.Retimed f) (Issue.Retimed f))
      (outcomes ts) (outcomes us) := by
  induction h with
  | nil => exact .nil
  | @cons t u ts us ht hts ih =>
      cases hSlate : t.isSlate with
      | true =>
          rw [outcomes_slate hSlate, outcomes_slate (ht.isSlate_eq.trans hSlate)]
          exact .cons (OpenWindow.liftRel_outcome (v := ⟨t.start, []⟩) (w := ⟨u.start, []⟩) rfl
            (ht.2 hSlate) hts) ih
      | false => simpa [outcomes, ht.isSlate_eq, hSlate] using ih

/-- Retimed tokens have windows with the same words, at retimed starts. What opens and
closes a window is its words alone. -/
theorem forall₂_windows {ts us : List Token} (h : List.Forall₂ (Retimed f) ts us) :
    List.Forall₂ (Window.Retimed f) (windows ts) (windows us) := by
  refine List.rel_filterMap ?_ (forall₂_outcomes h)
  rintro _ _ (⟨hWindow⟩ | _)
  · exact Option.Rel.some hWindow
  · exact Option.Rel.none

/-- Retimed tokens have as many malformed windows, at retimed starts. -/
theorem forall₂_malformed {ts us : List Token} (h : List.Forall₂ (Retimed f) ts us) :
    List.Forall₂ (Issue.Retimed f) (malformed ts) (malformed us) := by
  refine List.rel_filterMap ?_ (forall₂_outcomes h)
  rintro _ _ (_ | ⟨hIssue⟩)
  · exact Option.Rel.none
  · exact Option.Rel.some hIssue

end Token

/-- The times of a window have no part in what command it is. -/
theorem Command.ofPayload_retimed (payload : List String) (start stop start' stop' : Seconds) :
    ofPayload payload start' stop' =
      (ofPayload payload start stop).map fun c => { c with start := start', stop := stop' } := by
  cases payload with
  | nil => rfl
  | cons word words =>
      simp only [ofPayload]
      cases Category.ofWord? word with
      | none => rfl
      | some category =>
          simp only [bind, Except.bind]
          cases splitNumber category words with
          | error reason => rfl
          | ok number =>
              simp only
              split <;> rfl

namespace Window

variable {v w : Window}

/-- A retimed window gives the same command, retimed, if it gives one. -/
theorem Retimed.rel_command? (h : Retimed f v w) :
    Option.Rel (Command.Retimed f) v.command? w.command? := by
  have hPayload := Command.ofPayload_retimed v.payload v.start v.stop w.start w.stop
  rw [command?, command?, classify, classify, h.1, hPayload]
  cases hKept : Command.ofPayload v.payload v.start v.stop with
  | error reason => exact Option.Rel.none
  | ok c =>
      refine Option.Rel.some ?_
      rw [Command.Retimed, h.2, (Command.of_ofPayload hKept).1]

/-- A retimed window gives an issue of the same kind, retimed, if it gives one. -/
theorem Retimed.rel_issue? (h : Retimed f v w) :
    Option.Rel (Issue.Retimed f) v.issue? w.issue? := by
  have hPayload := Command.ofPayload_retimed v.payload v.start v.stop w.start w.stop
  rw [issue?, issue?, classify, classify, h.1, hPayload]
  cases Command.ofPayload v.payload v.start v.stop with
  | error reason => exact Option.Rel.some ⟨rfl, h.2⟩
  | ok c => exact Option.Rel.none

end Window

/-- Commands that are moved in time without a change of their order are taken in
the same sequence. -/
theorem Command.forall₂_inOrder {cs ds : List Command} (h : List.Forall₂ (Retimed f) cs ds)
    (hOrder : ∀ a ∈ cs, ∀ b ∈ cs,
      a.start.order ≤ b.start.order ↔ (f a.start).order ≤ (f b.start).order) :
    List.Forall₂ (Retimed f) (inOrder cs) (inOrder ds) := by
  -- both lists are put in order as one list of pairs
  let pairs := cs.zip ds
  let notAfter (a b : Command) : Bool := decide (a.start.order ≤ b.start.order)
  let ordered := pairs.mergeSort fun p q => notAfter p.1 q.1
  have hPair : ∀ p ∈ pairs, p.1 ∈ cs ∧ Retimed f p.1 p.2 := fun p hp =>
    ⟨(List.of_mem_zip hp).1, List.forall₂_zip h hp⟩
  have hFirst : ordered.map Prod.fst = inOrder cs := calc
    ordered.map Prod.fst = (pairs.map Prod.fst).mergeSort notAfter :=
      List.map_mergeSort fun _ _ _ _ => rfl
    _ = inOrder cs := by rw [List.map_fst_zip h.length_eq.le]; rfl
  have hAgree : ∀ p ∈ pairs, ∀ q ∈ pairs, notAfter p.1 q.1 = notAfter p.2 q.2 := by
    intro p hp q hq
    obtain ⟨hp, hp'⟩ := hPair p hp
    obtain ⟨hq, hq'⟩ := hPair q hq
    simp only [notAfter]
    rw [hp', hq', decide_eq_decide]
    exact hOrder p.1 hp q.1 hq
  have hSecond : ordered.map Prod.snd = inOrder ds := calc
    ordered.map Prod.snd = (pairs.map Prod.snd).mergeSort notAfter := List.map_mergeSort hAgree
    _ = inOrder ds := by rw [List.map_snd_zip h.length_eq.ge]; rfl
  rw [← hFirst, ← hSecond, List.forall₂_map_left_iff, List.forall₂_map_right_iff,
    List.forall₂_same]
  exact fun p hp => (hPair p (List.mem_mergeSort.mp hp)).2

/-- The segment with another start and another end. -/
def Segment.retime (f : Seconds → Seconds) (s : Segment) : Segment :=
  { s with start := f s.start, stop := f s.stop }

def Issue.retime (f : Seconds → Seconds) (i : Issue) : Issue :=
  { i with start := f i.start }

namespace Timeline

def retime (f : Seconds → Seconds) (t : Timeline) : Timeline :=
  { t with
    segments := t.segments.map (Segment.retime f)
    warnings := t.warnings.map (Issue.retime f) }

/-- A segment that is opened at a retimed start is the one that is opened otherwise,
retimed. -/
theorem openSegment_retime (t : Timeline) (start : Seconds) (label : String) :
    (t.retime f).openSegment (f start) label = (t.openSegment start label).retime f := by
  have hIndex : (t.retime f).nextIndex = t.nextIndex := by
    cases hSegments : t.segments <;> simp [nextIndex, retime, hSegments, Segment.retime]
  rw [openSegment, hIndex]
  rfl

/-- What one command does, the retimed one does to the retimed timeline. Commands do not
look at times, so nothing is asked of the function. -/
theorem apply_retime {c d : Command} (h : Command.Retimed f c d) (t : Timeline) :
    (t.retime f).apply d = (t.apply c).retime f := by
  rw [h]
  cases hKind : c.kind with
  | start =>
      simp only [apply, hKind]
      split
      · exact openSegment_retime { t with scene := c.number, step := none } c.start c.label
      · exact openSegment_retime { t with step := c.number } c.start c.label
  | standalone =>
      simp only [apply, hKind]
      exact openSegment_retime t c.start (standaloneLabel c)
  | retroactive => cases hSegments : t.segments <;>
      simp [apply, hKind, hSegments, retime, Segment.retime, Issue.retime, orphan]
  | deprecatedEnding => simp [apply, hKind, retime, Issue.retime, deprecated]

/-- What commands do one after the other, the retimed ones do to the retimed timeline.
No command looks at a time when it is taken. -/
theorem foldl_apply_retime {cs ds : List Command}
    (h : List.Forall₂ (Command.Retimed f) cs ds) (t : Timeline) :
    ds.foldl apply (t.retime f) = (cs.foldl apply t).retime f := by
  induction h generalizing t with
  | nil => rfl
  | cons hc _ ih => rw [List.foldl_cons, List.foldl_cons, apply_retime hc, ih]

end Timeline

/-- Closing puts the ends at the new starts as well. Only the last end is that
of the footage. -/
theorem Segment.closeAll_retime (segments : List Segment) (footage footage' : Seconds) {i : Nat}
    {s : Segment} (hAt : (closeAll footage segments)[i]? = some s) :
    ∃ stop, (closeAll footage' (segments.map (retime f)))[i]? =
        some { s with start := f s.start, stop := stop } ∧
      (i + 1 < segments.length → stop = f s.stop) := by
  rw [getElem?_closeAll] at hAt
  obtain ⟨o, hOpen, rfl⟩ := Option.map_eq_some_iff.mp hAt
  rw [getElem?_closeAll, List.getElem?_map, List.getElem?_map, hOpen]
  refine ⟨_, rfl, fun hNext => ?_⟩
  rw [List.getElem?_eq_getElem hNext]
  rfl

namespace Cut

theorem forall₂_commands {ts us : List Token}
    (h : List.Forall₂ (Token.Retimed f) (Token.normalized ts) (Token.normalized us)) :
    List.Forall₂ (Command.Retimed f) (commands ts) (commands us) := by
  rw [commands_eq, commands_eq]
  exact List.rel_filterMap (fun _ _ hWindow => hWindow.rel_command?) (Token.forall₂_windows h)

/-- The errors of retimed tokens are of the same kinds and in the same order, retimed.
The length of the footage has no part in them. -/
theorem forall₂_errors {ts us : List Token}
    (h : List.Forall₂ (Token.Retimed f) (Token.normalized ts) (Token.normalized us))
    (footage footage' : Seconds) :
    List.Forall₂ (Issue.Retimed f) (ofTokens ts footage).report.errors
      (ofTokens us footage').report.errors := by
  rw [errors_ofTokens, errors_ofTokens]
  exact List.rel_append (Token.forall₂_malformed h)
    (List.rel_filterMap (fun _ _ hWindow => hWindow.rel_issue?) (Token.forall₂_windows h))

/-- The commands have the order of their slates, which `f` keeps. -/
theorem order_le_iff_of_commands {tokens : List Token}
    (hSlates : ∀ x ∈ Token.normalized tokens, ∀ y ∈ Token.normalized tokens, x.isSlate = true →
      y.isSlate = true → x.start.order < y.start.order → (f x.start).order < (f y.start).order) :
    ∀ a ∈ commands tokens, ∀ b ∈ commands tokens,
      a.start.order ≤ b.start.order ↔ (f a.start).order ≤ (f b.start).order := by
  intro a ha b hb
  obtain ⟨x, hx, hSlate, hStart⟩ := exists_slate_of_mem_commands ha
  obtain ⟨y, hy, hSlate', hStart'⟩ := exists_slate_of_mem_commands hb
  rw [← hStart, ← hStart']
  constructor
  · intro hLe
    rcases Int.lt_or_eq_of_le hLe with hLt | hSame
    · exact Int.le_of_lt (hSlates x hx y hy hSlate hSlate' hLt)
    · exact Int.le_of_eq (by rw [Seconds.eq_of_order_eq hSame])
  · intro hLe
    by_contra hLater
    have hLt := hSlates y hy x hx hSlate' hSlate (Int.not_le.mp hLater)
    omega

/-- A cut takes no time from the tokens but those of the slates. Where `f` keeps
the order of these, the same words with their slates at the times of `f` give
the same cut with `f` on its times; only the last end is that of the footage. -/
theorem ofTokens_retimed {ts us : List Token}
    (hTokens : List.Forall₂ (fun t u => u.text = t.text ∧
      ∀ w ∈ t.normal?, w.isSlate = true → u.start = f t.start) ts us)
    (hSlates : ∀ x ∈ Token.normalized ts, ∀ y ∈ Token.normalized ts, x.isSlate = true →
      y.isSlate = true → x.start.order < y.start.order → (f x.start).order < (f y.start).order)
    (footage footage' : Seconds) :
    let cut := ofTokens ts footage
    let other := ofTokens us footage'
    other.segments.length = cut.segments.length ∧
      (∀ i s, cut.segments[i]? = some s → ∃ stop,
        other.segments[i]? = some { s with start := f s.start, stop := stop } ∧
          (i + 1 < cut.segments.length → stop = f s.stop)) ∧
      List.Forall₂ (Issue.Retimed f) cut.report.errors other.report.errors ∧
      List.Forall₂ (Issue.Retimed f) cut.report.warnings other.report.warnings := by
  intro cut other
  have hNormal := Token.forall₂_normalized hTokens
  have hOrdered := Command.forall₂_inOrder (forall₂_commands hNormal)
    (order_le_iff_of_commands hSlates)
  have hTimeline : Timeline.ofCommands (commands us) =
      (Timeline.ofCommands (commands ts)).retime f :=
    Timeline.foldl_apply_retime hOrdered Timeline.initial
  refine ⟨?_, ?_, forall₂_errors hNormal footage footage', ?_⟩
  · simp only [cut, other, segments_ofTokens, hTimeline, Segment.length_closeAll, Timeline.retime,
      List.length_reverse, List.length_map]
  · intro i s hAt
    simp only [cut, other, segments_ofTokens, hTimeline, Timeline.retime, ← List.map_reverse,
      Segment.length_closeAll] at hAt ⊢
    exact Segment.closeAll_retime _ footage footage' hAt
  · simp only [cut, other, warnings_ofTokens, hTimeline, Timeline.retime, ← List.map_reverse,
      List.forall₂_map_right_iff, List.forall₂_same]
    exact fun i _ => ⟨rfl, rfl⟩

/-- The slates are spoken in reverse and all their times are doubled. What the other
words have for their times, numbers or not, makes no difference. -/
theorem ofTokens_retimed_doubled :
    let ts : List Token :=
      [⟨"Slate,", ⟨0x4000000000000000⟩⟩, ⟨"mark", ⟨0x4000000000000000⟩⟩,
        ⟨"done", ⟨0x4000000000000000⟩⟩, ⟨"slate", ⟨0x3FF0000000000000⟩⟩,
        ⟨"effect", ⟨0x3FF0000000000000⟩⟩, ⟨"done.", ⟨0x3FF0000000000000⟩⟩]
    let us : List Token :=
      [⟨"Slate,", ⟨0x4010000000000000⟩⟩, ⟨"mark", Seconds.nan⟩, ⟨"done", Seconds.infinity⟩,
        ⟨"slate", ⟨0x4000000000000000⟩⟩, ⟨"effect", Seconds.zero⟩, ⟨"done.", Seconds.nan⟩]
    let twice (x : Seconds) : Seconds := ⟨x.bits + 0x10000000000000⟩
    let cut := ofTokens ts ⟨0x4008000000000000⟩
    let other := ofTokens us Seconds.nan
    other.segments.length = 2 ∧ ∃ s stop, cut.segments[0]? = some s ∧
      other.segments[0]? = some { s with start := twice s.start, stop := stop } ∧
      stop = twice s.stop := by
  intro ts us twice cut other
  have hTokens : List.Forall₂ (fun t u => u.text = t.text ∧
      ∀ w ∈ t.normal?, w.isSlate = true → u.start = twice t.start) ts us := by
    decide +kernel
  have hSlates : ∀ x ∈ Token.normalized ts, ∀ y ∈ Token.normalized ts, x.isSlate = true →
      y.isSlate = true → x.start.order < y.start.order →
        (twice x.start).order < (twice y.start).order := by
    decide +kernel
  obtain ⟨hLength, hSegments, _⟩ :=
    ofTokens_retimed hTokens hSlates ⟨0x4008000000000000⟩ Seconds.nan
  have hTwo : cut.segments.length = 2 := by
    rw [length_segments]
    decide +kernel
  obtain ⟨s, hAt⟩ : ∃ s, cut.segments[0]? = some s :=
    ⟨_, List.getElem?_eq_getElem (by rw [hTwo]; decide)⟩
  obtain ⟨stop, hThere, hStop⟩ := hSegments 0 s hAt
  exact ⟨hLength.trans hTwo, s, stop, hAt, hThere, hStop (by rw [hTwo]; decide)⟩

end Cut

end RoughCut
