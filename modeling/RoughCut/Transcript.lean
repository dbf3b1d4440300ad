import RoughCut.Token

/-!
The transcript of one piece of footage.
-/

namespace RoughCut

/-- The tokens in the order of the transcript, and the length of the footage,
which is not positive when it is unknown. -/
structure Transcript where
  tokens : List Token
  duration : Seconds
  deriving DecidableEq

namespace Transcript

/-- The words of the transcript in normal form. -/
def words (t : Transcript) : List Token :=
  Token.words t.tokens

/-- Where the last segment ends: at the end of the footage if its length is
known, and else where the last token starts. -/
def endOfFootage (t : Transcript) : Seconds :=
  if Seconds.zero.lt t.duration then t.duration
  else (t.tokens.getLast?.map Token.start).getD Seconds.zero

end Transcript

end RoughCut
