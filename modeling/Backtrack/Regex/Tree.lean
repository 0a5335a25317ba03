import Backtrack.Regex.Class

/-!
# Pattern trees

A pattern as it is written: which characters stand together, what is grouped and what is repeated.
From the tree one sees how deep a pattern is nested and how much it expands to, and what it matches.
-/

namespace Backtrack.Regex

inductive Quantifier where
  | star
  | plus
  | opt
  | count (least : Nat) (most : Option Nat)
  deriving DecidableEq, Repr

def Quantifier.size (inner : Nat) : Quantifier → Nat
  | .star => inner + 2
  | .plus | .opt => inner + 1
  | .count 0 none => inner + 2
  | .count least none => least * inner + 1
  | .count least (some most) => most * inner + (most - least)

inductive Tree where
  | empty
  | literal (ignoreCase : Bool) (codes : List Nat)
  | chars (c : CharClass)
  | check (a : Assertion)
  | capture (t : Tree)
  | repeated (q : Quantifier) (greedy : Bool) (t : Tree)
  | concat (ts : List Tree)
  | alternate (ts : List Tree)
  deriving Repr

namespace Tree

mutual

def height : Tree → Nat
  | empty | literal _ _ | chars _ | check _ => 1
  | capture t | repeated _ _ t => t.height + 1
  | concat ts | alternate ts => heightOfAll ts + 1

def heightOfAll : List Tree → Nat
  | [] => 0
  | t :: ts => max t.height (heightOfAll ts)

end

mutual

def size : Tree → Nat
  | empty | chars _ | check _ => 1
  | literal _ codes => max 1 codes.length
  | capture t => t.size + 2
  | repeated q _ t => max 1 (q.size t.size)
  | concat ts => max 1 (sizeOfAll ts)
  | alternate ts => max 1 (sizeOfAll ts + (ts.length - 1))

def sizeOfAll : List Tree → Nat
  | [] => 0
  | t :: ts => t.size + sizeOfAll ts

end

mutual

/-- Whether nested repetitions multiply to at most `limit`. -/
def countsWithin (limit : Nat) : Tree → Bool
  | empty | literal _ _ | chars _ | check _ => true
  | capture t | repeated .star _ t | repeated .plus _ t | repeated .opt _ t => t.countsWithin limit
  | repeated (.count least most) _ t =>
    let m := most.getD least
    if most = some 0 then true
    else if limit < m then false
    else t.countsWithin (if m = 0 then limit else limit / m)
  | concat ts | alternate ts => allCountsWithin limit ts

/-- Whether the nested repetitions of some patterns multiply to at most `limit` each. -/
def allCountsWithin (limit : Nat) : List Tree → Bool
  | [] => true
  | t :: ts => t.countsWithin limit && allCountsWithin limit ts

end

def repeatRegex (q : Quantifier) (greedy : Bool) (r : Regex) : Regex :=
  match q with
  | .star => starOf greedy r
  | .plus => plusOf greedy r
  | .opt => optOf greedy r
  | .count least most => countOf greedy least most r

/-- The class of a code point, up to case where the pattern says so. -/
def codeClass (ignoreCase : Bool) (n : Nat) : CharClass := caseAware ignoreCase (.ranges [(n, n)])

mutual

def regex : Tree → Regex
  | empty => .empty
  | literal ignoreCase codes => seqs (codes.map fun n => .chars (codeClass ignoreCase n))
  | chars c => .chars c
  | check a => .check a
  | capture t => t.regex
  | repeated q greedy t => repeatRegex q greedy t.regex
  | concat ts => seqs (regexes ts)
  | alternate ts => alts (regexes ts)

def regexes : List Tree → List Regex
  | [] => []
  | t :: ts => t.regex :: regexes ts

end

def class? : Tree → Option CharClass
  | literal ignoreCase [n] => some (codeClass ignoreCase n)
  | chars c => some c
  | _ => none

end Tree

end Backtrack.Regex
