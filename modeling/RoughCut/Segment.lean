import RoughCut.Seconds.Format
import RoughCut.Tags

/-!
Segments, the spans of footage that make the rough cut.
-/

namespace RoughCut

/-- A span of footage, counted from one, in a scene and a step if they are
known. -/
structure Segment where
  index : Nat
  start : Seconds
  stop : Seconds
  scene : Option UInt32
  step : Option UInt32
  label : String
  tags : Tags
  deriving DecidableEq

namespace Segment

def duration (s : Segment) : Seconds :=
  s.stop.sub s.start

/-- The segment with its end where the next one starts. The last one ends with
the footage, or at its own start where the footage ends no later. -/
def close (footage : Seconds) (s : Segment) (next : Option Seconds) : Segment :=
  { s with stop := next.getD (footage.max s.start) }

/-- Closes each segment of a list at the start of the one after it. -/
def closeAll (footage : Seconds) (segments : List Segment) : List Segment :=
  List.zipWith (close footage) segments
    ((segments.drop 1).map (fun s => some s.start) ++ [none])

end Segment

end RoughCut
