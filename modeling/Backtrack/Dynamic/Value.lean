import Backtrack.Text.Utf8

/-!
# Values of described grammars

Grammars that are described by data match values of one type, which is decided at run time.
-/

namespace Backtrack.Dynamic

inductive Value where
  | null
  | unit
  | bool (b : Bool)
  | int (i : Int)
  | char (c : Char)
  | text (t : Bytes)
  | pair (left right : Value)
  | list (elements : List Value)

namespace Value

mutual

/-- The text of a value: characters and texts as they are, integers in decimal, pairs and lists part
by part, and nothing for the rest. -/
def flat : Value → Bytes
  | null | unit | bool _ => []
  | int i => Bytes.ofInt i
  | char c => Utf8.encode c
  | text t => t
  | pair left right => left.flat ++ right.flat
  | list elements => flatList elements

def flatList : List Value → Bytes
  | [] => []
  | v :: vs => v.flat ++ flatList vs

end

end Value

end Backtrack.Dynamic
