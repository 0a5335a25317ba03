import Backtrack.Regex.Budget

/-!
# Joining patterns

Patterns that stand side by side are joined into one, either one after another or as alternatives.
Joints of the same kind are not nested. What alternatives begin with in common is written once,
single characters among them become one class, and none of this changes what is matched.
-/

namespace Backtrack.Regex

def commonStart : List Nat → List Nat → List Nat
  | a :: as, b :: bs => if a = b then a :: commonStart as bs else []
  | _, _ => []

namespace Tree

def leadingCodes : Tree → Bool × List Nat
  | literal ignoreCase codes => (ignoreCase, codes)
  | concat (literal ignoreCase codes :: _) => (ignoreCase, codes)
  | _ => (false, [])

def dropCodes (n : Nat) : Tree → Tree
  | literal ignoreCase codes =>
    match codes.drop n with
    | [] => empty
    | rest => literal ignoreCase rest
  | t => t

/-- A pattern without the first `n` of the code points that it begins with. -/
def dropLeadingCodes (n : Nat) : Tree → Building Tree
  | concat (first :: rest) =>
    match dropCodes n first, rest with
    | empty, [only] => do
      Budget.release 2
      return only
    | empty, rest => do
      Budget.release 1
      return concat rest
    | first, rest => return concat (first :: rest)
  | t => return dropCodes n t

structure Lead where
  members : CharClass
  /-- The number of characters and whether the repetition is greedy, if there is a repetition. -/
  times : Option (Nat × Bool)
  deriving DecidableEq

/-- A pattern as one character or a fixed number of characters of one class. -/
def lead? : Tree → Option Lead
  | repeated (.count least (some most)) greedy t =>
    if least = most then t.class?.map (⟨·, some (least, greedy)⟩) else none
  | t => t.class?.map (⟨·, none⟩)

def leading : Tree → Tree
  | concat (first :: _) => first
  | t => t

/-- A pattern without what it begins with. The node of that is given up unless it is `kept`. -/
def dropLeading (kept : Bool) : Tree → Building Tree
  | concat (_ :: rest) => do
    Budget.release (if kept then 0 else 1)
    match rest with
    | [only] =>
      Budget.release 1
      return only
    | rest => return concat rest
  | _ => do
    Budget.release (if kept then 0 else 1)
    Budget.make
    return empty

/-- Takes the patterns from the front of a list that begin with a code point in common with the ones
before, of which `codes` is what all have in common. -/
def takeCodes (ignoreCase : Bool) (codes : List Nat) : List Tree → List Nat × List Tree × List Tree
  | [] => (codes, [], [])
  | t :: ts =>
    let (flag, more) := t.leadingCodes
    let common := commonStart codes more
    if flag = ignoreCase && !common.isEmpty then
      let (codes, run, rest) := takeCodes ignoreCase common ts
      (codes, t :: run, rest)
    else (codes, [], t :: ts)

/-- Takes the patterns from the front of a list that begin with the given characters. -/
def takeLead (lead : Lead) : List Tree → List Tree × List Tree
  | [] => ([], [])
  | t :: ts =>
    if t.leading.lead? = some lead then
      let (run, rest) := takeLead lead ts
      (t :: run, rest)
    else ([], t :: ts)

/-- Puts characters that stand side by side as alternatives into one class. -/
def mergeClasses : List Tree → Building (List Tree)
  | [] => return []
  | t :: ts => do
    let merged ← mergeClasses ts
    match t, merged with
    | t, u :: us =>
      match t.class?, u.class? with
      | some c, some d => do
        Budget.release 1
        return chars (.union c d) :: us
      | _, _ => return t :: u :: us
    | t, [] => return [t]

def mergeEmpty : List Tree → List Tree
  | empty :: empty :: ts => mergeEmpty (empty :: ts)
  | t :: ts => t :: mergeEmpty ts
  | [] => []

mutual

/-- Writes what neighbours begin with in common once: first code points, as many as possible. -/
def factorCodes : (fuel : Nat) → List Tree → Building (List Tree)
  | 0, ts => return ts
  | _, [] => return []
  | fuel + 1, t :: ts => do
    let (ignoreCase, codes) := t.leadingCodes
    let (codes, run, rest) := takeCodes ignoreCase codes ts
    let rest ← factorCodes fuel rest
    if run.isEmpty then return t :: rest
    Budget.make
    let tails ← (t :: run).mapM fun t => do
      let tail ← dropLeadingCodes codes.length t
      Budget.check tail
      return tail
    let tail ← alternatives fuel tails
    Budget.make
    return concat [literal ignoreCase codes, tail] :: rest

/-- Writes what neighbours begin with in common once: then whole patterns for characters. -/
def factorLeads : (fuel : Nat) → List Tree → Building (List Tree)
  | 0, ts => return ts
  | _, [] => return []
  | fuel + 1, t :: ts => do
    let alone : Building (List Tree) := do return t :: (← factorLeads fuel ts)
    match t.leading.lead? with
    | none => alone
    | some lead =>
      let (run, rest) := takeLead lead ts
      if run.isEmpty then alone
      else
        let head ← dropLeading true t
        Budget.check head
        let tails ← run.mapM fun t => do
          let tail ← dropLeading false t
          Budget.check tail
          return tail
        let tail ← alternatives fuel (head :: tails)
        Budget.make
        return concat [t.leading, tail] :: (← factorLeads fuel rest)

/-- Some patterns as alternatives; `fuel` bounds the depth of common beginnings. -/
def alternatives : (fuel : Nat) → List Tree → Building Tree
  | 0, ts => return alternate ts
  | _, [t] => return t
  | fuel + 1, ts => do
    Budget.make
    let nested := ts.countP fun | alternate _ => true | _ => false
    Budget.release nested
    let flat := ts.flatMap fun | alternate us => us | t => [t]
    let ts ← factorCodes fuel flat
    let ts ← factorLeads fuel ts
    let ts := mergeEmpty (← mergeClasses ts)
    match ts with
    | [t] =>
      Budget.release 1
      return t
    | ts => return alternate ts

end

def joined : List Tree → Building Tree
  | [] => do
    Budget.make
    return empty
  | [t] => return t
  | ts => do
    Budget.make
    let nested := ts.countP fun | concat _ => true | _ => false
    Budget.release nested
    return concat (ts.flatMap fun | concat us => us | t => [t])

end Tree

end Backtrack.Regex
