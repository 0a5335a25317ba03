import Backtrack.Text.Bytes
import Backtrack.Text.Category
import Backtrack.Text.Fold
import Backtrack.Text.Script

/-!
# Regular expressions

Regular expressions over characters, as a tree. Groups leave no trace in the tree, because only the
extent of a match is ever asked for.
-/

namespace Backtrack

inductive CharClass where
  | ranges (intervals : List (Nat × Nat))
  | categories (categories : List Text.Category)
  | script (code : String)
  | folded (c : CharClass)
  | union (c d : CharClass)
  | complement (c : CharClass)
  deriving DecidableEq, Repr

namespace CharClass

def contains : CharClass → Nat → Bool
  | ranges intervals, n => intervals.any fun (lo, hi) => lo ≤ n && n ≤ hi
  | categories cs, n => cs.contains (Text.category n)
  | script code, n => Text.inScript code n
  | folded c, n => (Text.foldOrbit n).any c.contains
  | union c d, n => c.contains n || d.contains n
  | complement c, n => !c.contains n

def single (c : Char) : CharClass := ranges [(c.toNat, c.toNat)]

def ofString (s : String) : CharClass := ranges (s.toList.map fun c => (c.toNat, c.toNat))

def none : CharClass := ranges []

def digit : CharClass := ranges [(48, 57)]

/-- The letters, digits and the low line of ASCII. -/
def word : CharClass := ranges [(48, 57), (65, 90), (95, 95), (97, 122)]

/-- Tab, newline, form feed, carriage return and space. -/
def blank : CharClass := ranges [(9, 10), (12, 13), (32, 32)]

def notNewline : CharClass := complement (ranges [(10, 10)])

def ascii : CharClass := ranges [(0, 0x7F)]

def any : CharClass := ranges [(0, 0x10FFFF)]

end CharClass

/-- A condition on a place in the text that consumes nothing. -/
inductive Assertion where
  | beginText | endText | beginLine | endLine | wordBoundary | noWordBoundary
  deriving DecidableEq, Repr

/-- A regular expression. `greedy` says which way a choice of length is tried first. -/
inductive Regex where
  | empty
  | chars (c : CharClass)
  | check (a : Assertion)
  | seq (r s : Regex)
  | alt (r s : Regex)
  | opt (greedy : Bool) (r : Regex)
  | star (greedy : Bool) (r : Regex)
  | plus (greedy : Bool) (r : Regex)
  | count (greedy : Bool) (least : Nat) (most : Option Nat) (r : Regex)
  deriving DecidableEq, Repr

namespace Regex

/-- One expression after another. Chains are grouped to the left, so that a matcher meets each
expression of a chain once with all places that the ones before it lead to. -/
def append (r : Regex) : Regex → Regex
  | seq s t => seq (r.append s) t
  | s => seq r s

def seqs : List Regex → Regex
  | [] => empty
  | r :: rs => rs.foldl append r

/-- Some expressions as alternatives, earlier ones first. -/
def alts : List Regex → Regex
  | [] => empty
  | [r] => r
  | r :: rs => alt r (alts rs)

def ofString (s : String) : Regex := seqs (s.toList.map fun c => chars (.single c))

def anchored (r : Regex) : Regex := append (check .beginText) r

/-- Whether every match starts where the text begins, as far as the shape shows it. -/
def isAnchored : Regex → Bool
  | check .beginText => true
  | seq r _ => r.isAnchored
  | alt r s => r.isAnchored && s.isAnchored
  | _ => false

/-- Whether an expression can match the empty text, as far as the shape shows it. -/
def isNullable : Regex → Bool
  | empty | check _ | opt _ _ | star _ _ => true
  | chars _ => false
  | seq r s => r.isNullable && s.isNullable
  | alt r s => r.isNullable || s.isNullable
  | plus _ r => r.isNullable
  | count _ least _ r => least = 0 || r.isNullable

/-- How many numbers are kept for the choices inside an expression. -/
def choices : Regex → Nat
  | empty | chars _ | check _ => 0
  | seq r s => r.choices + s.choices
  | alt r s => r.choices + s.choices + 1
  | opt _ r | plus _ r => r.choices + 1
  | star _ r => r.choices + 2
  | count _ least most r => (max least (most.getD 0) + 1) * (r.choices + 2)

/-- Repeating what is repeated in the same way already adds nothing; so for the next two. -/
def starOf (greedy : Bool) : Regex → Regex
  | empty => empty
  | star g r => if g = greedy then star g r else star greedy (star g r)
  | r => star greedy r

def plusOf (greedy : Bool) : Regex → Regex
  | empty => empty
  | plus g r => if g = greedy then plus g r else plus greedy (plus g r)
  | r => plus greedy r

def optOf (greedy : Bool) : Regex → Regex
  | empty => empty
  | opt g r => if g = greedy then opt g r else opt greedy (opt g r)
  | r => opt greedy r

def countOf (greedy : Bool) (least : Nat) (most : Option Nat) (r : Regex) : Regex :=
  match least, most with
  | _, some 0 => empty
  | 0, none => starOf greedy r
  | 1, none => plusOf greedy r
  | 0, some 1 => optOf greedy r
  | 1, some 1 => r
  | _, _ => count greedy least most r

end Regex

end Backtrack
