import Backtrack.Regex.Tree

/-!
# Limits on patterns

While a pattern is read, a budget keeps account of what has been built: how many nodes of the tree,
how many interval bounds of classes, and by how much the repetitions multiply. A pattern that is
nested too deeply or that expands too far is refused.
-/

namespace Backtrack

/-- The number of stretches of a table in which a condition holds. It is counted by twos, with one
more inside a stretch. -/
def Text.stretches {α : Type} (table : Array (Nat × α)) (condition : α → Bool) : Nat :=
  table.foldl
    (fun twice (_, a) =>
      if condition a then (if twice % 2 = 0 then twice + 3 else twice) else twice - twice % 2)
    0 / 2

def CharClass.boundCount : CharClass → Nat
  | ranges intervals => 2 * intervals.length
  | categories cs => 2 * Text.stretches Text.categoryStarts cs.contains
  | script code => 2 * Text.stretches Text.scriptStarts (· == code)
  | folded c | complement c => c.boundCount
  | union c d => c.boundCount + d.boundCount

def CharClass.fewMembers? : CharClass → Option (List Nat)
  | ranges intervals =>
    if intervals.all fun (lo, hi) => hi ≤ lo + 3 then
      some (intervals.flatMap fun (lo, hi) => (List.range (hi + 1 - lo)).map (lo + ·))
    else Option.none
  | folded c => c.fewMembers?.map fun ns => (ns.flatMap Text.foldOrbit)
  | union c d => do return (← c.fewMembers?) ++ (← d.fewMembers?)
  | _ => Option.none

namespace Regex

def heightLimit : Nat := 1000

def sizeLimit : Nat := Nat.pow 2 27 / 40

def boundLimit : Nat := Nat.pow 2 27 / 4

/-- What has been built while reading a pattern. -/
structure Budget where
  pattern : Bytes
  made : Nat := 0
  spare : Nat := 0
  bounds : Nat := 0
  /-- The product of the repetitions that were met. -/
  repeats : Nat := 1
  /-- Whether sizes are looked at. That begins once the nodes and the repetitions could multiply to
  more than the limit. -/
  weighs : Bool := false

abbrev Building (α : Type) := StateT Budget Reading α

namespace Budget

def make : Building Unit :=
  modify fun b =>
    if 0 < b.spare then { b with spare := b.spare - 1 } else { b with made := b.made + 1 }

def release (n : Nat) : Building Unit := modify fun b => { b with spare := b.spare + n }

/-- By how much a tree multiplies what is inside, if it is a counted repetition. -/
def factor : Tree → Nat
  | .repeated (.count least most) _ _ => max 1 (most.getD least)
  | _ => 1

/-- Takes note of a counted repetition, and begins to weigh when that has become necessary. -/
def note (b : Budget) (t : Tree) : Budget :=
  if b.weighs then b
  else
    let n := factor t
    let repeats := if sizeLimit / b.repeats < n then sizeLimit else b.repeats * n
    { b with repeats := repeats, weighs := sizeLimit / repeats ≤ b.made }

def check (t : Tree) : Building Unit := do
  let b ← get
  if boundLimit < b.bounds then throw ⟨.tooLarge, b.pattern⟩
  let b := b.note t
  set b
  if b.weighs && sizeLimit < t.size then throw ⟨.tooLarge, b.pattern⟩
  if heightLimit < t.height then throw ⟨.nestedTooDeeply, b.pattern⟩

def listed : Tree → Nat
  | .literal _ codes => codes.length
  | .chars c => c.boundCount
  | _ => 0

def enter (t : Tree) : Building Unit := do
  modify fun b => { b with bounds := b.bounds + listed t }
  check t

end Budget

end Regex

end Backtrack
