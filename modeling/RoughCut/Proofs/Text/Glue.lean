import RoughCut.Proofs.Text.CleanEnds
import RoughCut.Text.Pattern

/-!
What glues to a word is found by its pattern at the start and at the end of the text and
nowhere between. So the normal form, the text without all matches of the pattern, is the
one part of the text that has nothing but glue around it and none at its ends.
-/

namespace RoughCut.Text

namespace Pattern

variable {pattern : Pattern} {p : Char → Bool} {s : List Char} {i j stop : Nat}

/-- The next match is the first place from which anything matches, and ends where a
match from there is tried first. -/
theorem next?_eq_some (hFrom : i ≤ j) (hInside : j < s.length)
    (hEnd : pattern.endFrom? s j = some stop)
    (hBefore : ∀ k, i ≤ k → k < j → pattern.endFrom? s k = none) :
    pattern.next? s i = some (j, stop) := by
  have hPlaces : List.range' i (s.length - i) =
      List.range' i (j - i) ++ j :: List.range' (j + 1) (s.length - (j + 1)) := by
    have hLater : List.range' j (s.length - j) =
        j :: List.range' (j + 1) (s.length - (j + 1)) := by
      rw [← List.range'_succ]
      congr 1
      omega
    have hJoin := List.range'_append_1 (s := i) (m := j - i) (n := s.length - j)
    rw [Nat.add_sub_cancel' hFrom, hLater] at hJoin
    rw [hJoin]
    congr 1
    omega
  have hNone : (List.range' i (j - i)).findSome?
      (fun k => (pattern.endFrom? s k).map (Prod.mk k)) = none := by
    rw [List.findSome?_eq_none_iff]
    intro k hPlace
    rw [List.mem_range'_1] at hPlace
    rw [hBefore k hPlace.1 (by omega), Option.map_none]
  rw [next?, hPlaces, List.findSome?_append, hNone, List.findSome?_cons, hEnd]
  rfl

/-- Where nothing matches from any place on there is no next match. -/
theorem next?_eq_none (h : ∀ k, i ≤ k → k < s.length → pattern.endFrom? s k = none) :
    pattern.next? s i = none := by
  rw [next?, List.findSome?_eq_none_iff]
  intro k hPlace
  rw [List.mem_range'_1] at hPlace
  rw [h k hPlace.1 (by omega), Option.map_none]

theorem spans_of_none (h : pattern.next? s i = none) : pattern.spans s i = [] := by
  rw [spans]
  split
  · rfl
  · next span hSpan => rw [h] at hSpan; cases hSpan

theorem spans_of_some (h : pattern.next? s i = some (j, stop)) :
    pattern.spans s i = (j, stop) :: pattern.spans s stop := by
  rw [spans]
  split
  · next hNone => rw [h] at hNone; cases hNone
  · next span hSpan =>
    obtain rfl := Option.some.inj (h.symm.trans hSpan)
    rfl

/-- Nothing is found from the end of a text on. -/
theorem spans_length : pattern.spans s s.length = [] :=
  spans_of_none (next?_eq_none fun _ hFrom hInside => absurd hInside (Nat.not_lt.mpr hFrom))

/-! Runs. -/

/-- A run ends as late as it can. Shorter runs come after it among the ends, where a
pattern may fall back on them. -/
theorem head?_ends_run (p : Char → Bool) (s : List Char) (i : Nat) :
    ((run p).ends s i).head? =
      if ((s.drop i).takeWhile p).length = 0 then none
      else some (i + ((s.drop i).takeWhile p).length) := by
  rw [ends, List.head?_reverse, List.getLast?_map, List.getLast?_range]
  split_ifs with hNone
  · rfl
  · rw [Option.map_some]
    congr 1
    omega

/-- A run may end behind each of its characters, so long as there is one at least. -/
theorem mem_ends_run :
    stop ∈ (run p).ends s i ↔ i < stop ∧ stop ≤ i + ((s.drop i).takeWhile p).length := by
  rw [ends, List.mem_reverse, List.mem_map]
  constructor
  · rintro ⟨n, hLess, rfl⟩
    rw [List.mem_range] at hLess
    omega
  · rintro ⟨hAfter, hWithin⟩
    exact ⟨stop - (i + 1), List.mem_range.mpr (by omega), by omega⟩

/-- A run that is to end where the text does goes on from its place to there. -/
theorem head?_ends_run_atEnd (p : Char → Bool) (s : List Char) (i : Nat) :
    ((both (run p) atEnd).ends s i).head? =
      if i < s.length ∧ (s.drop i).all p = true then some s.length else none := by
  have hEnds : (both (run p) atEnd).ends s i =
      ((run p).ends s i).flatMap fun stop => if stop = s.length then [stop] else [] := rfl
  rw [hEnds]
  split_ifs with hWhole
  · obtain ⟨hInside, hAll⟩ := hWhole
    have hRun : (s.drop i).takeWhile p = s.drop i :=
      List.takeWhile_eq_self_iff.mpr (List.all_eq_true.mp hAll)
    have hHead := head?_ends_run p s i
    rw [hRun, List.length_drop, if_neg (by omega), Nat.add_sub_cancel' hInside.le] at hHead
    obtain ⟨shorter, hRuns⟩ := List.head?_eq_some_iff.mp hHead
    rw [hRuns, List.flatMap_cons, if_pos rfl]
    rfl
  · rw [List.head?_eq_none_iff, List.flatMap_eq_nil_iff]
    intro stop hStop
    rw [if_neg]
    rintro rfl
    obtain ⟨hInside, hLong⟩ := mem_ends_run.mp hStop
    refine hWhole ⟨hInside, List.all_eq_true.mpr (List.takeWhile_eq_self_iff.mp ?_)⟩
    refine (List.takeWhile_prefix p).eq_of_length_le ?_
    rw [List.length_drop]
    omega

/-! The pattern of glue. -/

theorem endFrom?_glue_zero : glue.endFrom? s 0 =
    if (s.takeWhile isTrimming).length = 0 then none else some (s.takeWhile isTrimming).length := by
  have hEnds : glue.ends s 0 =
      (run isTrimming).ends s 0 ++ [] ++ (both (run isTrimming) atEnd).ends s 0 := rfl
  have hRun := head?_ends_run isTrimming s 0
  have hLast := head?_ends_run_atEnd isTrimming s 0
  rw [List.drop_zero, Nat.zero_add] at hRun
  rw [List.drop_zero] at hLast
  rw [endFrom?, hEnds, List.append_nil, List.head?_append, hRun, hLast]
  split_ifs with hNone hWhole
  · -- the second half of the pattern begins with a run as well
    rw [← List.takeWhile_eq_self_iff.mpr (List.all_eq_true.mp hWhole.2), hNone] at hWhole
    exact absurd hWhole.1 (Nat.lt_irrefl 0)
  · rfl
  · rw [Option.or_some, Option.filter_some, if_pos (by simpa using Nat.pos_of_ne_zero hNone)]
    rfl
  · rw [Option.or_none, Option.filter_some, if_pos (by simpa using Nat.pos_of_ne_zero hNone)]

/-- Further on something matches only if all of the rest is to be trimmed, and then it
is all of it. -/
theorem endFrom?_glue_of_pos (h : 0 < i) : glue.endFrom? s i =
    if i < s.length ∧ (s.drop i).all isTrimming = true then some s.length else none := by
  have hEnds : glue.ends s i =
      (if i = 0 then [i] else []).flatMap ((run isTrimming).ends s) ++
        (both (run isTrimming) atEnd).ends s i := rfl
  rw [endFrom?, hEnds, if_neg h.ne', List.flatMap_nil, List.nil_append, head?_ends_run_atEnd]
  split_ifs with hWhole
  · rw [Option.filter_some, if_pos (by simpa using hWhole.1)]
  · rfl

/-- Where there is nothing but glue, it is all one match. -/
theorem spans_glue_of_all (hSome : s ≠ []) (h : ∀ c ∈ s, isTrimming c = true) :
    glue.spans s 0 = [(0, s.length)] := by
  have hLength : 0 < s.length := List.length_pos_iff.mpr hSome
  have hEnd : glue.endFrom? s 0 = some s.length := by
    rw [endFrom?_glue_zero, List.takeWhile_eq_self_iff.mpr h, if_neg hLength.ne']
  have hNext := next?_eq_some (Nat.le_refl 0) hLength hEnd
    fun k _ hBefore => absurd hBefore (Nat.not_lt_zero k)
  rw [spans_of_some hNext, spans_length]

/-- Nothing is left of a text in which everything is to be trimmed. -/
theorem outside_glue_of_all (h : ∀ c ∈ s, isTrimming c = true) :
    outside s 0 (glue.spans s 0) = [] := by
  by_cases hSome : s = []
  · subst hSome
    rw [show glue.spans [] 0 = [] from spans_length]
    rfl
  · rw [spans_glue_of_all hSome h]
    simp [outside]

section Around

variable (before after : List Char) {word : List Char}

/-- No match begins in a word that has glue at neither end, nor in front of it but at the
start of the text. -/
theorem endFrom?_glue_inside (hFirst : ∃ c ∈ word.head?, isTrimming c = false)
    (hLast : ∃ c ∈ word.getLast?, isTrimming c = false)
    (hFrom : before.length ≤ i) (hInside : i < before.length + word.length) :
    glue.endFrom? (before ++ word ++ after) i = none := by
  by_cases hStart : i = 0
  · subst hStart
    obtain rfl := List.length_eq_zero_iff.mp (Nat.le_zero.mp hFrom)
    obtain ⟨c, hHead, hKept⟩ := hFirst
    obtain ⟨rest, rfl⟩ := List.head?_eq_some_iff.mp hHead
    rw [endFrom?_glue_zero, if_pos]
    simp [hKept]
  · rw [endFrom?_glue_of_pos (Nat.pos_of_ne_zero hStart), if_neg]
    rintro ⟨-, hAll⟩
    obtain ⟨c, hEnd, hKept⟩ := hLast
    obtain ⟨front, rfl⟩ := List.getLast?_eq_some_iff.mp hEnd
    have hMem : c ∈ (before ++ (front ++ [c]) ++ after).drop i := by
      rw [List.length_append, List.length_singleton] at hInside
      rw [List.append_assoc, ← List.append_assoc before, ← List.append_assoc before,
        List.append_assoc, List.drop_append_of_le_length (by simp; omega)]
      simp
    rw [List.all_eq_true.mp hAll c hMem] at hKept
    cases hKept

variable {after}

/-- From the start of the word on the one match is what stands after it. -/
theorem spans_glue_from (hAfter : ∀ c ∈ after, isTrimming c = true)
    (hFirst : ∃ c ∈ word.head?, isTrimming c = false)
    (hLast : ∃ c ∈ word.getLast?, isTrimming c = false) :
    glue.spans (before ++ word ++ after) before.length =
      if after = [] then []
      else [(before.length + word.length, (before ++ word ++ after).length)] := by
  have hInside (k : Nat) (hFrom : before.length ≤ k) (hTo : k < before.length + word.length) :=
    endFrom?_glue_inside before after hFirst hLast hFrom hTo
  split_ifs with hNone
  · subst hNone
    exact spans_of_none (next?_eq_none fun k hFrom hTo => hInside k hFrom (by simpa using hTo))
  · have hSome : 0 < after.length := List.length_pos_iff.mpr hNone
    have hWord : 0 < word.length := by
      obtain ⟨c, hHead, -⟩ := hFirst
      exact List.length_pos_of_mem (List.mem_of_mem_head? hHead)
    have hLength : (before ++ word ++ after).length =
        before.length + word.length + after.length := by
      simp only [List.length_append]
    have hDrop : (before ++ word ++ after).drop (before.length + word.length) = after := by
      rw [← List.length_append, List.drop_left]
    have hEnd : glue.endFrom? (before ++ word ++ after) (before.length + word.length) =
        some (before ++ word ++ after).length := by
      rw [endFrom?_glue_of_pos (by omega), if_pos ⟨by omega, by rwa [hDrop, List.all_eq_true]⟩]
    have hNext :=
      next?_eq_some (Nat.le_add_right before.length word.length) (by omega) hEnd hInside
    rw [spans_of_some hNext, spans_length]

variable {before}

/-- The matches in a text are the glue in front of its word and the glue after it. What
is glue inside of the word reaches neither end of the text. -/
theorem spans_glue (hBefore : ∀ c ∈ before, isTrimming c = true)
    (hAfter : ∀ c ∈ after, isTrimming c = true)
    (hFirst : ∃ c ∈ word.head?, isTrimming c = false)
    (hLast : ∃ c ∈ word.getLast?, isTrimming c = false) :
    glue.spans (before ++ word ++ after) 0 =
      (if before = [] then [] else [(0, before.length)]) ++
        if after = [] then []
        else [(before.length + word.length, (before ++ word ++ after).length)] := by
  have hRest := spans_glue_from before hAfter hFirst hLast
  rw [← hRest]
  split_ifs with hNone
  · subst hNone
    rfl
  · have hSome : 0 < before.length := List.length_pos_iff.mpr hNone
    have hRun : (before ++ word ++ after).takeWhile isTrimming = before := by
      obtain ⟨c, hHead, hKept⟩ := hFirst
      obtain ⟨rest, rfl⟩ := List.head?_eq_some_iff.mp hHead
      rw [List.append_assoc, List.takeWhile_append_of_pos hBefore]
      simp [hKept]
    have hEnd : glue.endFrom? (before ++ word ++ after) 0 = some before.length := by
      rw [endFrom?_glue_zero, hRun, if_neg hSome.ne']
    have hNext := next?_eq_some (Nat.le_refl 0) (by simp; omega) hEnd
      fun k _ hBefore => absurd hBefore (Nat.not_lt_zero k)
    exact spans_of_some hNext

/-- The word is left of a text with glue around it. -/
theorem outside_glue (hBefore : ∀ c ∈ before, isTrimming c = true)
    (hAfter : ∀ c ∈ after, isTrimming c = true)
    (hFirst : ∃ c ∈ word.head?, isTrimming c = false)
    (hLast : ∃ c ∈ word.getLast?, isTrimming c = false) :
    outside (before ++ word ++ after) 0 (glue.spans (before ++ word ++ after) 0) = word := by
  have hTake : (before ++ word ++ after).take (before.length + word.length) = before ++ word := by
    rw [← List.length_append, List.take_left]
  have hStart (spans : List (Nat × Nat)) : outside (before ++ word ++ after) 0
      ((if before = [] then [] else [(0, before.length)]) ++ spans) =
        outside (before ++ word ++ after) before.length spans := by
    split_ifs with hNone
    · subst hNone
      rfl
    · rfl
  rw [spans_glue hBefore hAfter hFirst hLast, hStart]
  split_ifs with hNone
  · simp [outside, hNone]
  · rw [outside, hTake, List.drop_left, outside, List.drop_length, List.append_nil]

end Around

end Pattern

variable {s : List Char} {p : Char → Bool} {text word before after : String}

/-- What is stripped stands around what is left. -/
theorem exists_around_strip (p : Char → Bool) (s : List Char) :
    ∃ before after, (∀ c ∈ before, p c = true) ∧ (∀ c ∈ after, p c = true) ∧
      s = before ++ strip p s ++ after := by
  refine ⟨s.takeWhile p, (s.dropWhile p).rtakeWhile p, fun c => List.mem_takeWhile_imp,
    fun c => List.mem_rtakeWhile_imp, ?_⟩
  have hEnd : (s.dropWhile p).rdropWhile p ++ (s.dropWhile p).rtakeWhile p = s.dropWhile p := by
    rw [List.rdropWhile, List.rtakeWhile, ← List.reverse_append, List.takeWhile_append_dropWhile,
      List.reverse_reverse]
  rw [strip_eq_rdropWhile, List.append_assoc, hEnd, List.takeWhile_append_dropWhile]

/-- The text is made of blanks and punctuation. -/
def IsGlue (text : String) : Prop :=
  ∀ c ∈ text.toList, isTrimming c = true

/-- The word is all of the text but the blanks and the punctuation around it. -/
structure IsBare (text word : String) : Prop where
  around : ∃ before after, IsGlue before ∧ IsGlue after ∧ text = before ++ word ++ after
  ends : word = "" ∨ (∃ c ∈ word.toList.head?, isTrimming c = false) ∧
    ∃ c ∈ word.toList.getLast?, isTrimming c = false

/-- A word that is not empty has an end on either side. -/
theorem cleanEnds_iff : CleanEnds word ↔
    word = "" ∨ (∃ c ∈ word.toList.head?, isTrimming c = false) ∧
      ∃ c ∈ word.toList.getLast?, isTrimming c = false := by
  by_cases hEmpty : word = ""
  · subst hEmpty
    exact iff_of_true cleanEnds_empty (Or.inl rfl)
  · have hSome : word.toList ≠ [] := by simpa using hEmpty
    have hOnce {o : Option Char} (h : o.isSome = true) :
        (∀ c ∈ o, isTrimming c = false) ↔ ∃ c ∈ o, isTrimming c = false := by
      cases o with
      | none => cases h
      | some c => simp
    have hFirst := hOnce (List.isSome_head?.mpr hSome)
    have hLast := hOnce (List.getLast?_isSome.mpr hSome)
    rw [or_iff_right hEmpty, ← hFirst, ← hLast]
    exact ⟨fun hClean => ⟨hClean.first, hClean.last⟩, fun hEnds => ⟨hEnds.1, hEnds.2⟩⟩

/-- Blanks and punctuation around a text make no difference to its normal form. -/
theorem normalize_around (hBefore : IsGlue before) (hAfter : IsGlue after) :
    normalize (before ++ text ++ after) = normalize text := by
  rw [normalize, String.toList_append, String.toList_append, strip_around hBefore hAfter, normalize]

/-- The normal form is all of a text but the blanks and the punctuation around it. -/
theorem isBare_normalize (text : String) : IsBare text (normalize text) := by
  obtain ⟨before, after, hBefore, hAfter, hText⟩ := exists_around_strip isTrimming text.toList
  refine ⟨⟨String.ofList before, String.ofList after, ?_, ?_, ?_⟩, ?_⟩
  · rwa [IsGlue, String.toList_ofList]
  · rwa [IsGlue, String.toList_ofList]
  · rw [← String.toList_inj]
    simpa [normalize] using hText
  · exact cleanEnds_iff.mp (normalize_eq_self_iff.mp (normalize_normalize text))

/-- There is one word like that. -/
theorem IsBare.eq_normalize (h : IsBare text word) : word = normalize text := by
  obtain ⟨before, after, hBefore, hAfter, rfl⟩ := h.around
  rw [normalize_around hBefore hAfter, normalize_eq_self_iff.mpr (cleanEnds_iff.mpr h.ends)]

/-- Only of blanks and punctuation nothing is left. -/
theorem normalize_eq_empty_iff : normalize text = "" ↔ IsGlue text := by
  constructor
  · intro hEmpty
    obtain ⟨before, after, hBefore, hAfter, hText⟩ := (isBare_normalize text).around
    intro c hMem
    rw [hEmpty] at hText
    have hSides : c ∈ before.toList ∨ c ∈ after.toList := by
      rw [hText] at hMem
      simpa using hMem
    exact hSides.elim (hBefore c) (hAfter c)
  · intro hGlue
    have hBare : IsBare text "" := ⟨⟨text, "", hGlue, by simp [IsGlue], by simp⟩, Or.inl rfl⟩
    exact hBare.eq_normalize.symm

/-- The normal form is what the pattern of glue leaves. So stripping characters from
both ends and removing matches are one and the same. -/
theorem removeAll_glue (text : String) : glue.removeAll text = normalize text := by
  obtain ⟨⟨before, after, hBefore, hAfter, hText⟩, hEnds⟩ := isBare_normalize text
  rcases hEnds with hEmpty | ⟨hFirst, hLast⟩
  · rw [hEmpty, Pattern.removeAll, Pattern.outside_glue_of_all (normalize_eq_empty_iff.mp hEmpty)]
  · have hChars : text.toList = before.toList ++ (normalize text).toList ++ after.toList := by
      conv_lhs => rw [hText]
      rw [String.toList_append, String.toList_append]
    rw [Pattern.removeAll, hChars, Pattern.outside_glue hBefore hAfter hFirst hLast,
      String.ofList_toList]

/-- Glue at the start of a text ends before the first character that is none. -/
theorem exists_front {u rest front tail : List Char} {c : Char}
    (hGlue : ∀ c ∈ u, isTrimming c = true) (hKept : isTrimming c = false)
    (h : u ++ rest = front ++ c :: tail) :
    ∃ kept, front = u ++ kept ∧ rest = kept ++ c :: tail := by
  rcases List.append_eq_append_iff.mp h with ⟨kept, hFront, hRest⟩ | ⟨more, hStart, hTail⟩
  · exact ⟨kept, hFront, hRest⟩
  · cases more with
    | nil => exact ⟨[], by simpa using hStart.symm, by simpa using hTail.symm⟩
    | cons d more =>
        obtain rfl : c = d := (List.cons.inj hTail).1
        rw [hGlue c (by simp [hStart])] at hKept
        cases hKept

/-- A character that is not to be trimmed lies before the glue at the end of a text. So
the glue is at the end of what follows the character. -/
theorem exists_back {rest v front tail : List Char} {c : Char}
    (hGlue : ∀ c ∈ v, isTrimming c = true) (hKept : isTrimming c = false)
    (h : rest ++ v = front ++ c :: tail) :
    ∃ kept, tail = kept ++ v ∧ rest = front ++ c :: kept := by
  have hReverse : v.reverse ++ rest.reverse = tail.reverse ++ c :: front.reverse := by
    rw [← List.reverse_append, h]
    simp
  obtain ⟨kept, hTail, hRest⟩ := exists_front (by simpa using hGlue) hKept hReverse
  refine ⟨kept.reverse, List.reverse_injective ?_, List.reverse_injective ?_⟩
  · simpa using hTail
  · simpa using hRest

/-- What stands between two characters that are no glue stays as it is, and so does all
that is between them and the glue at the ends. -/
theorem exists_toList_normalize {front inside back : List Char} {first last : Char}
    (hText : text.toList = front ++ first :: inside ++ last :: back)
    (hFirst : isTrimming first = false) (hLast : isTrimming last = false) :
    ∃ u v kept kept', (∀ c ∈ u, isTrimming c = true) ∧ (∀ c ∈ v, isTrimming c = true) ∧
      front = u ++ kept ∧ back = kept' ++ v ∧
      (normalize text).toList = kept ++ first :: inside ++ last :: kept' := by
  obtain ⟨before, after, hBefore, hAfter, hParts⟩ := (isBare_normalize text).around
  have hChars : before.toList ++ ((normalize text).toList ++ after.toList) =
      front ++ first :: (inside ++ last :: back) := by
    rw [← List.append_assoc, ← String.toList_append, ← String.toList_append, ← hParts, hText]
    simp
  obtain ⟨kept, hFront, hRest⟩ := exists_front hBefore hFirst hChars
  have hRest : (normalize text).toList ++ after.toList =
      (kept ++ first :: inside) ++ last :: back := by
    rw [hRest]
    simp
  obtain ⟨kept', hBack, hWord⟩ := exists_back hAfter hLast hRest
  exact ⟨_, _, kept, kept', hBefore, hAfter, hFront, hBack, hWord⟩

/-- The normal form is what is left of a text when all matches of the pattern of glue
are taken out. It is the one word with which the text is that word with blanks and
punctuation around it, and that is empty or has neither at its ends. So it is its own
normal form; glue around a text does not change it; it is empty where the text is glue
and nowhere else; and what stands between two characters that are no glue stays. -/
theorem normalize_two_sided (text : String) :
    normalize text = glue.removeAll text ∧
      IsBare text (normalize text) ∧ (∀ word, IsBare text word → word = normalize text) ∧
      normalize (normalize text) = normalize text ∧
      (∀ before after, IsGlue before → IsGlue after →
        normalize (before ++ text ++ after) = normalize text) ∧
      (normalize text = "" ↔ IsGlue text) ∧
      ∀ front first inside last back, text.toList = front ++ first :: inside ++ last :: back →
        isTrimming first = false → isTrimming last = false →
        ∃ u v kept kept', (∀ c ∈ u, isTrimming c = true) ∧ (∀ c ∈ v, isTrimming c = true) ∧
          front = u ++ kept ∧ back = kept' ++ v ∧
          (normalize text).toList = kept ++ first :: inside ++ last :: kept' := by
  refine ⟨(removeAll_glue text).symm, isBare_normalize text, fun word hBare => hBare.eq_normalize,
    normalize_normalize text, fun before after hBefore hAfter => normalize_around hBefore hAfter,
    normalize_eq_empty_iff, ?_⟩
  exact fun front first inside last back hText hFirst hLast =>
    exists_toList_normalize hText hFirst hLast

/-- A number in brackets with a comma after it keeps its hyphens. -/
theorem normalize_two_sided_bracketed :
    let text := "\u2003(twenty--one),"
    glue.removeAll text = "twenty--one" ∧ (∀ word, IsBare text word → word = "twenty--one") ∧
      normalize ("... " ++ text ++ "!") = "twenty--one" ∧ ¬ IsGlue text ∧
      ∃ kept kept', (normalize text).toList = kept ++ 'y' :: ['-', '-'] ++ 'o' :: kept' := by
  intro text
  have hWord : normalize text = "twenty--one" := by decide
  obtain ⟨hRemoved, -, hOnly, -, hAround, hEmpty, hInside⟩ := normalize_two_sided text
  obtain ⟨-, -, kept, kept', -, -, -, -, hKept⟩ := hInside "\u2003(twent".toList 'y' ['-', '-'] 'o'
    "ne),".toList (by decide) (by decide) (by decide)
  have hSides := hAround "... " "!" (List.all_eq_true.mp (by decide))
    (List.all_eq_true.mp (by decide))
  rw [hWord] at hRemoved hOnly hSides
  refine ⟨hRemoved.symm, hOnly, hSides, fun hGlue => ?_, kept, kept', hKept⟩
  rw [hEmpty.mpr hGlue] at hWord
  exact absurd hWord (by decide)

end RoughCut.Text
