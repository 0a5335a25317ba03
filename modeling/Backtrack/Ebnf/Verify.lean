import Backtrack.Ebnf.Grammar

/-!
# Verification of grammars

A grammar is sound for a start production if all productions can be reached from it, every reference
has a production, lexical productions refer to lexical ones only, and every range goes upwards from
one character to another.

Productions are visited from the start on. The last one found is visited next, so the problems of a
production come before those of the productions found earlier.
-/

namespace Backtrack.Ebnf

inductive Problem where
  | noStart (name : Bytes)
  | missing (position : Position) (name : Bytes)
  | notLexical (position : Position) (name : Bytes)
  | notSingle (terminal : Terminal)
  | decreasing (position : Position)
  | unread (position : Position) (problem : Bytes)
  | unreachable (position : Position) (name : Bytes)

/-- Where a problem is; without a start production there is no such place. -/
def Problem.position : Problem → Position
  | .noStart _ => {}
  | .missing position _ | .notLexical position _ | .decreasing position | .unread position _
  | .unreachable position _ => position
  | .notSingle terminal => terminal.position

def Problem.text : Problem → Bytes
  | .noStart name => "no start production " ++ name
  | .missing _ name => "missing production " ++ name
  | .notLexical _ name => "reference to non-lexical production " ++ name
  | .notSingle terminal => "single char expected, found " ++ terminal.text
  | .decreasing _ => "decreasing character range"
  | .unread _ problem => problem
  | .unreachable _ name => name ++ " is unreachable"

def Problem.message (p : Problem) : Bytes := messageAt p.position p.text

/-- The productions found so far: those that wait to be visited, the next one first, and those that
no reference was found to. -/
structure Frontier where
  waiting : List Production
  unseen : List Production

/-- Finds the production with a name, unless it has been found before. -/
def Frontier.discover (f : Frontier) (name : Bytes) : Frontier :=
  let (found, unseen) := f.unseen.partition fun p => p.name = name
  ⟨found ++ f.waiting, unseen⟩

/-- Visits productions until none is waiting: those visited in order, and those never found. Every
visit ends the waiting of a production, so `fuel` need not exceed their number. -/
def Frontier.visit : (fuel : Nat) → Frontier → List Production × List Production
  | 0, f => ([], f.unseen)
  | fuel + 1, f =>
    match f.waiting with
    | [] => ([], f.unseen)
    | p :: waiting =>
      let (visited, unseen) := visit fuel (p.names.foldl discover ⟨waiting, f.unseen⟩)
      (p :: visited, unseen)

def Grammar.reach (grammar : Grammar) (start : Bytes) : List Production × List Production :=
  Frontier.visit grammar.length (Frontier.discover ⟨[], grammar⟩ start)

/-- The character of a range's end, zero if it is not a single one, and what is wrong with it. -/
def Terminal.rangeEnd (t : Terminal) : Nat × List Problem :=
  match Utf8.chars t.text with
  | [c] => (c.toNat, [])
  | _ => (0, [.notSingle t])

def referenceProblems (grammar : Grammar) (lexical : Bool) (position : Position) (name : Bytes) :
    List Problem :=
  (if (grammar.find? name).isSome then [] else [.missing position name])
    ++ (if lexical && !isLexical name then [.notLexical position name] else [])

def rangeProblems (first last : Terminal) : List Problem :=
  let (i, below) := first.rangeEnd
  let (j, above) := last.rangeEnd
  below ++ above ++ (if j ≤ i then [.decreasing first.position] else [])

def Expression.problems (grammar : Grammar) (lexical : Bool) : Expression → List Problem
  | .name position target => referenceProblems grammar lexical position target
  | .token _ => []
  | .range first last => rangeProblems first last
  | .group _ body | .option _ body | .repetition _ body => body.problems grammar lexical
  | .sequence parts | .alternative parts => problemsOfAll parts
  | .bad position problem => [.unread position problem]
where
  problemsOfAll : List Expression → List Problem
    | [] => []
    | e :: es => e.problems grammar lexical ++ problemsOfAll es

def Production.problems (grammar : Grammar) (p : Production) : List Problem :=
  match p.body with
  | none => []
  | some body => body.problems grammar (isLexical p.name)

def Grammar.problems (grammar : Grammar) (start : Bytes) : List Problem :=
  if (grammar.find? start).isNone then [.noStart start]
  else
    let (visited, unseen) := grammar.reach start
    visited.flatMap (Production.problems grammar)
      ++ unseen.map fun p => .unreachable p.position p.name

def Grammar.verify (grammar : Grammar) (start : Bytes) : Except Bytes Unit :=
  match grammar.problems start with
  | [] => .ok ()
  | problems => .error (summarize (problems.map Problem.message))

end Backtrack.Ebnf
