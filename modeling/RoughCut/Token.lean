import RoughCut.Seconds.Format
import RoughCut.Text.Punctuation

/-!
Tokens, the words of a transcript with the times they are spoken at, and the
two ways to their normal forms: `Token.normalized` maps a whole list, and
`Token.nextWord?` finds one word at a time for a reader that goes through a
transcript only once.
-/

namespace RoughCut

/-- A word as the transcriber wrote it, and the time it starts at. -/
structure Token where
  text : String
  start : Seconds
  deriving DecidableEq

namespace Token

/-- The token with its word in normal form, unless nothing is left of it. -/
def normal? (t : Token) : Option Token :=
  let text := Text.normalize t.text
  if text.isEmpty then none else some ⟨text, t.start⟩

/-- All tokens with their words in normal form, without those that have none. -/
def normalized (tokens : List Token) : List Token :=
  tokens.filterMap normal?

/-- The next word in normal form and the tokens after it. -/
def nextWord? : List Token → Option (Token × List Token)
  | [] => none
  | t :: ts =>
    match t.normal? with
    | some w => some (w, ts)
    | none => nextWord? ts

theorem length_of_nextWord? {ts rest : List Token} {w : Token}
    (h : nextWord? ts = some (w, rest)) : rest.length < ts.length := by
  induction ts with
  | nil => simp [nextWord?] at h
  | cons t ts ih =>
    unfold nextWord? at h
    split at h
    · simp only [Option.some.injEq, Prod.mk.injEq] at h
      simp [h.2]
    · exact Nat.lt_succ_of_lt (ih h)

/-- The words found so far, latest first, and those that a reader still meets
who always asks for the next one. -/
def wordsAfter (found : List Token) (tokens : List Token) : List Token :=
  match _next : nextWord? tokens with
  | none => found.reverse
  | some (w, rest) => wordsAfter (w :: found) rest
termination_by tokens.length
decreasing_by exact length_of_nextWord? ‹_›

/-- The words that a reader of one word at a time meets. -/
def words (tokens : List Token) : List Token :=
  wordsAfter [] tokens

end Token

end RoughCut
