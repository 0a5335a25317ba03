import Backtrack.Ebnf.Reader
import Backtrack.Ebnf.Verify
import Backtrack.Parser.Term

/-!
# Parsers of grammars

A grammar that was verified is turned into terms, one for each production, which refer to each other
by name. In lexical productions terminals match exactly; in others spaces may precede a terminal,
and a reference to a lexical production is a terminal too. Alternatives are tried in order. If the
start production is not lexical, spaces may follow the whole.

The value of a match is its text.
-/

namespace Backtrack.Ebnf

abbrev valueType : Bytes → Type := fun _ => Unit

abbrev Rule := Term valueType Unit

def spaces : Rule := Term.spaces.value ()

/-- A terminal of a production that is lexical or not. -/
def terminal {α : Type} (lexical : Bool) (p : Term valueType α) : Rule :=
  if lexical then p.value () else spaces.skipLeft (p.value ())

def reference (lexical : Bool) (name : Bytes) : Rule :=
  if isLexical name then terminal lexical (.ref name : Rule) else .ref name

def firstCode (text : Bytes) : Nat :=
  match Utf8.decode? text with
  | some (c, _) => c.toNat
  | none => Utf8.replacement.toNat

mutual

def Expression.rule (lexical : Bool) : Expression → Except Bytes Rule
  | .name _ target => .ok (reference lexical target)
  | .token t => .ok (terminal lexical (.literal t.text))
  | .range first last =>
    .ok (terminal lexical (.codeBetween (firstCode first.text) (firstCode last.text)))
  | .group _ body => body.rule lexical
  | .option _ body => return .optional () (← body.rule lexical)
  | .repetition _ body => return (← body.rule lexical).many0.value ()
  | .sequence parts => return (Term.sequenceOf (← rulesOfAll lexical parts)).value ()
  | .alternative parts => return Term.choice (← rulesOfAll lexical parts)
  | .bad position problem =>
    let text : Bytes := "bad expression: " ++ problem
    .error (messageAt position text)

def rulesOfAll (lexical : Bool) : List Expression → Except Bytes (List Rule)
  | [] => .ok []
  | e :: es => return (← e.rule lexical) :: (← rulesOfAll lexical es)

end

def Production.rule (p : Production) : Except Bytes Rule :=
  let body : Except Bytes Rule :=
    match p.body with
    | none => .ok (.always ())
    | some body => body.rule (isLexical p.name)
  match body with
  | .ok rule => .ok (.named p.name rule)
  | .error problem =>
    let text : Bytes := p.name ++ ": " ++ problem
    .error (messageAt p.position text)

def Grammar.definitions (grammar : Grammar) : Definitions valueType := fun name =>
  match grammar.find? name with
  | none => none
  | some p => p.rule.toOption

def startRule (start : Bytes) : Rule :=
  if isLexical start then .ref start else Term.skipRight (.ref start : Rule) spaces

def Grammar.parser (grammar : Grammar) (start : Bytes) : Parser Bytes :=
  (grammar.definitions.parser grammar.length (startRule start)).matchedText

def ruleProblem? : List Production → Option Bytes
  | [] => none
  | p :: ps =>
    match p.rule with
    | .ok _ => ruleProblem? ps
    | .error problem => some problem

/-- The parser of a grammar that passes a verification first. -/
def Grammar.compileBy (verify : Grammar → Bytes → Except Bytes Unit) (grammar : Grammar)
    (start : Bytes) : Except Bytes (Parser Bytes) :=
  match verify grammar start with
  | .error problem => .error problem
  | .ok () =>
    match ruleProblem? grammar with
    | some problem => .error problem
    | none => .ok (grammar.parser start)

def Grammar.compile (grammar : Grammar) (start : Bytes) : Except Bytes (Parser Bytes) :=
  grammar.compileBy Grammar.verify start

def compileText (text start : Bytes) : Except Bytes (Parser Bytes) :=
  match Grammar.parse unnamed text with
  | .error problem => .error problem
  | .ok grammar => grammar.compile start

def check (filename text start : Bytes) : Except Bytes Unit :=
  match Grammar.parse filename text with
  | .error problem => .error problem
  | .ok grammar =>
    match grammar.compile start with
    | .error problem => .error problem
    | .ok _ => .ok ()

end Backtrack.Ebnf
