import Backtrack.Ebnf.Token
import Backtrack.Text.Category

/-!
# Grammars

A grammar is a list of productions with different names. A production whose name starts with an
upper-case letter may have spaces between its terminals; every other production is lexical and
describes its characters exactly.

The positions in a grammar are those of the text it was read from, so that problems can be reported
where they are.
-/

namespace Backtrack.Ebnf

structure Terminal where
  position : Position
  text : Bytes
  deriving Repr

inductive Expression where
  | name (position : Position) (target : Bytes)
  | token (terminal : Terminal)
  | range (first last : Terminal)
  | group (position : Position) (body : Expression)
  | option (position : Position) (body : Expression)
  | repetition (position : Position) (body : Expression)
  | sequence (parts : List Expression)
  | alternative (parts : List Expression)
  | bad (position : Position) (problem : Bytes)

structure Production where
  position : Position
  name : Bytes
  /-- What it stands for; nothing is the empty text. -/
  body : Option Expression

abbrev Grammar := List Production

def Grammar.find? (grammar : Grammar) (name : Bytes) : Option Production :=
  List.find? (fun p => p.name = name) grammar

/-- Whether a name is that of a lexical production: it does not start with an upper-case letter. -/
def isLexical (name : Bytes) : Bool :=
  match Utf8.decode? name with
  | some (c, _) => !Text.isUpper c.toNat
  | none => true

/-- The names that an expression refers to, in order, as often as it does. -/
def Expression.names : Expression → List Bytes
  | .name _ target => [target]
  | .token _ | .range .. | .bad .. => []
  | .group _ body | .option _ body | .repetition _ body => body.names
  | .sequence parts | .alternative parts => namesOfAll parts
where
  namesOfAll : List Expression → List Bytes
    | [] => []
    | e :: es => e.names ++ namesOfAll es

def Production.names (p : Production) : List Bytes :=
  match p.body with
  | none => []
  | some body => body.names

/-- Some problems in one text: the first, and how many more there are. -/
def summarize : List Bytes → Bytes
  | [] => "no errors"
  | [problem] => problem
  | problem :: others => problem ++ " (and " ++ Bytes.ofNat others.length ++ " more errors)"

end Backtrack.Ebnf
