import Backtrack.Ebnf.Grammar

/-!
# Railroad diagrams

A grammar is drawn as a page with a section for each production, in the order of the source. A
production that is nothing but a terminal has no section if it is referred to; it is drawn wherever
that happens.
-/

namespace Backtrack.Ebnf

inductive Diagram where
  | skip
  | terminal (text : Bytes)
  | link (name : Bytes)
  | optional (body : Diagram)
  | zeroOrMore (body : Diagram)
  | sequence (parts : List Diagram)
  | choice (parts : List Diagram)

structure Section where
  name : Bytes
  diagram : Diagram

abbrev Page := List Section

def Expression.terminal? : Expression → Option Diagram
  | .token t => some (.terminal t.text)
  | .range first last => some (.terminal (first.text ++ "…" ++ last.text))
  | _ => none

def Production.terminal? (p : Production) : Option Diagram := p.body.bind Expression.terminal?

def Grammar.drawReference (grammar : Grammar) (name : Bytes) : Option Diagram :=
  (grammar.find? name).map fun p => p.terminal?.getD (.link name)

mutual

/-- The drawing of an expression. There is none if a reference leads nowhere or a part could not be
read. -/
def Expression.draw (grammar : Grammar) : Expression → Option Diagram
  | .name _ target => grammar.drawReference target
  | .token t => Expression.terminal? (.token t)
  | .range first last => Expression.terminal? (.range first last)
  | .group _ body => body.draw grammar
  | .option _ body => (body.draw grammar).map .optional
  | .repetition _ body => (body.draw grammar).map .zeroOrMore
  | .sequence parts => (drawAll grammar parts).map .sequence
  | .alternative parts => (drawAll grammar parts).map .choice
  | .bad .. => none

def drawAll (grammar : Grammar) : List Expression → Option (List Diagram)
  | [] => some []
  | e :: es => return (← e.draw grammar) :: (← drawAll grammar es)

end

def Production.draw (grammar : Grammar) (p : Production) : Option Diagram :=
  match p.body with
  | none => some .skip
  | some body => body.draw grammar

def Grammar.references (grammar : Grammar) (name : Bytes) : Nat :=
  (grammar.flatMap Production.names).count name

def Grammar.hasSection (grammar : Grammar) (p : Production) : Bool :=
  p.terminal?.isNone || grammar.references p.name = 0

def Grammar.isClosed (grammar : Grammar) : Bool :=
  (grammar.flatMap Production.names).all fun name => (grammar.find? name).isSome

def Grammar.inOrder (grammar : Grammar) : List Production :=
  grammar.mergeSort fun p q => p.position.offset ≤ q.position.offset

/-- The page of a grammar, unless a reference leads nowhere. -/
def Grammar.page (grammar : Grammar) : Option Page :=
  if grammar.isClosed then
    (grammar.inOrder.filter grammar.hasSection).mapM fun p => return ⟨p.name, ← p.draw grammar⟩
  else none

mutual

def Diagram.script : Diagram → Bytes
  | .skip => "Skip()"
  | .terminal text => "Terminal(" ++ Text.quoted text ++ ")"
  | .link name => "NonTerminal(" ++ Text.quoted name ++ ", \x7bhref:\"#" ++ name ++ "\"\x7d)"
  | .optional body => "Optional(" ++ body.script ++ ")"
  | .zeroOrMore body => "ZeroOrMore(" ++ body.script ++ ")"
  | .sequence parts => "Sequence(" ++ Bytes.join ", " (scripts parts) ++ ")"
  | .choice parts => "Choice(0, " ++ Bytes.join ", " (scripts parts) ++ ")"

def scripts : List Diagram → List Bytes
  | [] => []
  | d :: ds => d.script :: scripts ds

end

def documentStart : Bytes :=
  Bytes.join "\n" [
    "<!DOCTYPE html>",
    "<style>",
    "body \x7b",
    "\tbackground-color: hsl(30,20%, 95%);",
    "\x7d",
    "h1 \x7b",
    "\tfont-family: sans-serif;",
    "\tfont-size: 1em;",
    "\x7d",
    "</style>",
    "<!-- From https://github.com/tabatkins/railroad-diagrams -->",
    "<link rel='stylesheet' href='railroad-diagrams.css'>",
    "<script src='railroad-diagrams.js'></script>",
    "<body>",
    ""]

def Section.html (s : Section) : Bytes :=
  "<h1 id=" ++ Text.quoted s.name ++ ">" ++ s.name ++ "</h1>\n<script>\nDiagram("
    ++ s.diagram.script
    ++ ").addTo();\n</script>\n\n"

def Page.html (page : Page) : Bytes := documentStart ++ page.flatMap Section.html ++ "</body>\n"

end Backtrack.Ebnf
