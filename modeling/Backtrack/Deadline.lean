import Backtrack.Duration
import Backtrack.Evaluation

/-!
# Deadlines

An evaluation that does not come to an end is abandoned after a while, if a limit is set.
-/

namespace Backtrack

/-- An evaluation that may never come to an end, which is `none`. -/
abbrev Work (α : Type) := Option (Evaluation α)

def abandonment (name : Bytes) (limit : Duration) : Error :=
  .wrapped (name ++ ": evaluation abandoned after " ++ limit.text)
    (.plain "context deadline exceeded")

/-- Work on a named text under a limit, which must be positive to count. -/
def Work.within {α : Type} (limit : Duration) (name : Bytes) (work : Work α) : Work α :=
  match work with
  | some evaluation => some evaluation
  | none =>
    if 0 < limit.nanoseconds then some { result := .ok (.error (abandonment name limit)) } else none

end Backtrack
