import Backtrack.Ebnf.Grammar
import Backtrack.Ebnf.Lexer
import Backtrack.Text.Unquote

/-!
# Reading grammars

    Production  = name "=" [ Expression ] "." .
    Expression  = Alternative { "|" Alternative } .
    Alternative = Term { Term } .
    Term        = name | token [ "…" token ] | "(" Expression ")"
                | "[" Expression "]" | "{" Expression "}" .

The reader looks one token ahead. A token that is not the expected one is a problem; it is passed
over and reading goes on, so a grammar comes out in any case. It is the grammar of the text only if
there is no problem.
-/

namespace Backtrack.Ebnf

inductive Flaw where
  | expected (what : Bytes) (found : Token)
  | declaredAlready (position : Position) (name : Bytes)

def Flaw.message : Flaw → Bytes
  | .expected what found =>
    let text : Bytes := "expected \"" ++ what ++ "\", found " ++ found.found
    messageAt found.position text
  | .declaredAlready position name =>
    let text : Bytes := name ++ " declared already"
    messageAt position text

structure Reading where
  current : Token
  /-- The tokens behind it; behind the end there are none. -/
  later : List Token
  flaws : List Flaw := []

abbrev Reader := StateM Reading

namespace Reader

def current : Reader Token := return (← get).current

/-- Passes over a token; the end is never passed. -/
def advance : Reader Unit := modify fun r =>
  match r.later with
  | [] => r
  | t :: ts => { r with current := t, later := ts }

def report (flaw : Flaw) : Reader Unit := modify fun r => { r with flaws := flaw :: r.flaws }

def reportExpected (what : Bytes) : Reader Unit := do report (.expected what (← current))

/-- Passes over a token that should be of the given kind. -/
def expect (kind : Kind) : Reader Unit := do
  if (← current).kind ≠ kind then reportExpected kind.name
  advance

def name : Reader (Position × Bytes) := do
  let t ← current
  expect .identifier
  return (t.position, t.text)

/-- A quoted text; one that cannot be decoded is empty. -/
def terminal : Reader Terminal := do
  let t ← current
  if t.kind = .string ∨ t.kind = .raw then
    advance
    return ⟨t.position, (Text.unquote? t.text).getD []⟩
  else
    expect .string
    return ⟨t.position, []⟩

def terminalOrRange : Reader Expression := do
  let first ← terminal
  if (← current).kind = .mark '…' then
    advance
    return .range first (← terminal)
  else return .token first

def term? (expression : Reader Expression) : Reader (Option Expression) := do
  let t ← current
  let bracketed (make : Position → Expression → Expression) (closing : Char) :
      Reader (Option Expression) := do
    advance
    let body ← expression
    expect (.mark closing)
    return some (make t.position body)
  match t.kind with
  | .identifier => do
    let (position, text) ← name
    return some (.name position text)
  | .string | .raw => return some (← terminalOrRange)
  | .mark '(' => bracketed .group ')'
  | .mark '[' => bracketed .option ']'
  | .mark '\x7b' => bracketed .repetition '\x7d'
  | _ => return none

def terms (expression : Reader Expression) : (fuel : Nat) → Reader (List Expression)
  | 0 => return []
  | fuel + 1 => do
    match ← term? expression with
    | none => return []
    | some e => return e :: (← terms expression fuel)

/-- Terms one after another; a single term stands for itself. Every term has a token at least, which
bounds their number. -/
def sequence (expression : Reader Expression) : Reader Expression := do
  match ← terms expression ((← get).later.length + 1) with
  | [] =>
    reportExpected "term"
    return .bad (← current).position "term expected"
  | [e] => return e
  | es => return .sequence es

/-- Sequences with bars between them, at most `fuel` more. -/
def alternatives (expression : Reader Expression) : (fuel : Nat) → Reader (List Expression)
  | 0 => return []
  | fuel + 1 => do
    let first ← sequence expression
    if (← current).kind = .mark '|' then
      advance
      return first :: (← alternatives expression fuel)
    else return [first]

/-- An expression whose brackets are nested less than `depth` deep. -/
def expression : (depth : Nat) → Reader Expression
  | 0 => return .bad (← current).position "term expected"
  | depth + 1 => do
    match ← alternatives (expression depth) ((← get).later.length + 1) with
    | [e] => return e
    | es => return .alternative es

/-- A production. Every bracket is a token, so they are nested less deep than there are tokens. -/
def production : Reader Production := do
  let (position, name) ← name
  expect (.mark '=')
  if (← current).kind = .mark '.' then
    advance
    return ⟨position, name, none⟩
  else
    let body ← expression ((← get).later.length + 1)
    expect (.mark '.')
    return ⟨position, name, some body⟩

/-- Productions up to the end, at most `fuel`; of two with the same name the first counts. -/
def productions (grammar : Grammar) : (fuel : Nat) → Reader Grammar
  | 0 => return grammar
  | fuel + 1 => do
    if (← current).kind = .ending then return grammar
    else
      let p ← production
      match grammar.find? p.name with
      | none => productions (grammar ++ [p]) fuel
      | some _ =>
        report (.declaredAlready p.position p.name)
        productions grammar fuel

end Reader

def Grammar.ofTokens : List Token → Grammar × List Flaw
  | [] => ([], [])
  | t :: ts =>
    let (grammar, reading) :=
      (Reader.productions [] (ts.length + 1)).run { current := t, later := ts }
    (grammar, reading.flaws.reverse)

def Grammar.ofText (filename text : Bytes) : Grammar × List Flaw :=
  Grammar.ofTokens (tokensOf filename text).1

def Grammar.parse (filename text : Bytes) : Except Bytes Grammar :=
  match Grammar.ofText filename text with
  | (grammar, []) => .ok grammar
  | (_, flaws) => .error (summarize (flaws.map Flaw.message))

/-- How a grammar without a file of its own is called in messages. -/
def unnamed : Bytes := "<grammar>"

end Backtrack.Ebnf
