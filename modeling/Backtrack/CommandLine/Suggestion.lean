import Backtrack.Text.Quoted

/-!
# Suggestions

A word that is not known is answered with the known words that are close to it: those it is the
start of, and those that at most two changes of a character turn it into.
-/

namespace Backtrack.CommandLine

/-- The next row of distances, given the distance to its left and the row above with the entry above
the left one. -/
def nextRow (c : Char) : (left corner : Nat) → List Char → (above : List Nat) → List Nat
  | left, corner, d :: ds, up :: above =>
    let here := min (min (up + 1) (left + 1)) (if c = d then corner else corner + 1)
    here :: nextRow c here up ds above
  | _, _, _, _ => []

/-- The distances from a word to the starts of another, the empty one first. -/
def distances (target : List Char) : List Char → List Nat
  | [] => List.range (target.length + 1)
  | c :: cs => go c (distances target cs)
where
  go (c : Char) : List Nat → List Nat
    | [] => []
    | first :: above => (first + 1) :: nextRow c (first + 1) first target above

/-- The least number of changes of a character that turn one word into another. -/
def distance (a b : Bytes) : Nat :=
  ((distances (Utf8.chars b) (Utf8.chars a).reverse).getLast?).getD 0

def closeTo (word : Bytes) (known : List Bytes) : List Bytes :=
  known.filter fun k => word.isPrefixOf k || distance k word ≤ 2

def suggestion (word : Bytes) (known : List Bytes) : Bytes :=
  match (closeTo word known).map Text.quoted with
  | [] => []
  | [one] => ", did you mean " ++ one ++ "?"
  | several => ", did you mean one of " ++ Bytes.join ", " several ++ "?"

end Backtrack.CommandLine
