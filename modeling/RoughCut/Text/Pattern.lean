import RoughCut.Text.Punctuation

/-!
Patterns that are looked for in a text and taken out of it. A place in a text is the
number of characters before it. From one place a pattern can match up to several
others, of which it prefers some; of all places the leftmost is taken, and the search
goes on where the last match has ended.
-/

namespace RoughCut.Text

/-- What is looked for in a text. -/
inductive Pattern where
  /-- nothing, at the start of the text -/
  | atStart
  /-- nothing, at its end -/
  | atEnd
  /-- characters of a kind, one at least -/
  | run (p : Char → Bool)
  /-- one after the other -/
  | both (first second : Pattern)
  /-- the one or the other -/
  | either (first second : Pattern)

namespace Pattern

/-- Where a match from a place can end, in the order of preference: a run is as long as
it can be, and of two patterns the first comes first. -/
def ends (s : List Char) : Pattern → Nat → List Nat
  | atStart, i => if i = 0 then [i] else []
  | atEnd, i => if i = s.length then [i] else []
  | run p, i => ((List.range ((s.drop i).takeWhile p).length).map (i + 1 + ·)).reverse
  | both first second, i => (first.ends s i).flatMap (second.ends s)
  | either first second, i => first.ends s i ++ second.ends s i

/-- Where the match from a place ends, if there is one. A match of no character takes
nothing out of a text and does not count. -/
def endFrom? (pattern : Pattern) (s : List Char) (i : Nat) : Option Nat :=
  (pattern.ends s i).head?.filter (i < ·)

/-- The start and the end of the leftmost match from a place on. -/
def next? (pattern : Pattern) (s : List Char) (i : Nat) : Option (Nat × Nat) :=
  (List.range' i (s.length - i)).findSome? fun j => (pattern.endFrom? s j).map (Prod.mk j)

theorem lt_of_endFrom? {pattern : Pattern} {s : List Char} {i stop : Nat}
    (h : pattern.endFrom? s i = some stop) : i < stop := by
  simpa using (Option.filter_eq_some_iff.mp h).2

theorem lt_of_next? {pattern : Pattern} {s : List Char} {i : Nat} {span : Nat × Nat}
    (h : pattern.next? s i = some span) : i < s.length ∧ i < span.2 := by
  obtain ⟨j, hPlace, hEnd⟩ := List.exists_of_findSome?_eq_some h
  obtain ⟨stop, hStop, rfl⟩ := Option.map_eq_some_iff.mp hEnd
  have hAfter := lt_of_endFrom? hStop
  rw [List.mem_range'_1] at hPlace
  dsimp only
  omega

/-- The matches from a place on, from left to right, each of them from where the one
before it has ended. -/
def spans (pattern : Pattern) (s : List Char) (i : Nat) : List (Nat × Nat) :=
  match _next : pattern.next? s i with
  | none => []
  | some span => span :: spans pattern s span.2
termination_by s.length - i
decreasing_by
  have hAfter := lt_of_next? _next
  omega

/-- What is left of a text from a place on when these spans are taken out. -/
def outside (s : List Char) (i : Nat) : List (Nat × Nat) → List Char
  | [] => s.drop i
  | (first, stop) :: spans => (s.take first).drop i ++ outside s stop spans

/-- The text without the matches of the pattern. -/
def removeAll (pattern : Pattern) (text : String) : String :=
  String.ofList (outside text.toList 0 (pattern.spans text.toList 0))

end Pattern

/-- The blanks and the punctuation that a word begins with or ends with. -/
def glue : Pattern :=
  .either (.both .atStart (.run isTrimming)) (.both (.run isTrimming) .atEnd)

end RoughCut.Text
