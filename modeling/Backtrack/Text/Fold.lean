import Backtrack.Text.FoldTable

/-!
# Case folding

Two code points match regardless of case when their simple foldings agree. The orbit of a code point
is the set of all code points that match it.
-/

namespace Backtrack.Text

structure FoldRun where
  first : Nat
  count : Nat
  step : Nat
  shift : Int
  deriving Repr

def foldRunsOf : List String → List FoldRun
  | a :: b :: c :: d :: rest =>
    ⟨a.toNat?.getD 0, b.toNat?.getD 0, c.toNat?.getD 1, d.toInt?.getD 0⟩ :: foldRunsOf rest
  | _ => []

def foldTable : List FoldRun := foldRunsOf (foldRuns.flatMap (·.splitOn " "))

/-- Whether a run of the table says something about a code point. -/
def FoldRun.covers (r : FoldRun) (n : Nat) : Bool :=
  r.first ≤ n && n ≤ r.first + r.step * (r.count - 1) && (n - r.first) % r.step = 0

def fold (n : Nat) : Nat :=
  match foldTable.find? (·.covers n) with
  | some r => (n + r.shift).toNat
  | none => n

/-- All code points that match the given one regardless of case, itself included. -/
def foldOrbit (n : Nat) : List Nat :=
  let target := fold n
  (target :: foldTable.filterMap fun r =>
    let source : Int := target - r.shift
    if 0 ≤ source && r.covers source.toNat then some source.toNat else none).eraseDups

end Backtrack.Text
