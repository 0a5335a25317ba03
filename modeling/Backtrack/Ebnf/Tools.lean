import Backtrack.Ebnf.Compile
import Backtrack.Ebnf.Railroad
import Backtrack.Ebnf.Tools.Words
import Backtrack.Ebnf.Tree.Grammar
import Backtrack.Json.Printer

/-!
# Tools for grammar texts

One tool prints the syntax tree of a grammar text as JSON, the other draws a grammar as a page of
railroad diagrams.
-/

namespace Backtrack.Ebnf

structure Trail where
  exit : Nat
  output : Bytes := []
  errors : Bytes := []
  crash : Option Bytes := none

def complaintLines (filename text : Bytes) : Bytes :=
  (tokensOf filename text).2.flatMap fun complaint => complaint ++ "\n"

def giveUp (complaints problem : Bytes) : Trail :=
  { exit := 1, errors := complaints ++ "ebnf2json: error: " ++ problem ++ "\n" }

def printTree (filename text : Bytes) (start : Option Bytes) : Trail :=
  match (Tree.parse filename text).result with
  | .error _ => giveUp [] "the grammar broke down"
  | .ok (.error error) => giveUp [] error.text
  | .ok (.ok document) =>
    let written : Bytes := ((Tree.Document.toJson document).pretty []).toOption.getD [] ++ "\n"
    match start with
    | none => { exit := 0, output := written }
    | some start =>
      let complaints := complaintLines filename text
      match check filename text start with
      | .ok () => { exit := 0, output := written, errors := complaints }
      | .error problem => giveUp complaints problem

/-- Runs the tree tool. An empty name of a start asks for nothing. -/
def treeTool (files : Files) (input : Bytes) (words : List Bytes) : Trail :=
  match readTreeRequest files words with
  | .error problem => giveUp [] (problem ++ ", try --help")
  | .ok request =>
    let start := request.start.filter fun name => !name.isEmpty
    if request.help then { exit := 0 }
    else
      match request.file with
      | none => printTree "/dev/stdin" input start
      | some (name, .file text) => printTree name text start
      | some (name, .directory) => giveUp [] (Files.directoryMessage name)

def reminder : Bytes :=
  ">>> Copy railroad-diagrams.\x7bcss,js\x7d from https://github.com/tabatkins/railroad-diagrams\n"

def breakDown (complaints problem : Bytes) : Trail :=
  { exit := 2, errors := complaints, crash := some problem }

/-- Draws the grammar of a text that is sound for a start production. What was complained about
while the text was read comes first. -/
def drawText (filename text before start : Bytes) : Trail :=
  let complaints := before ++ complaintLines filename text
  match Grammar.parse filename text with
  | .error problem => breakDown complaints problem
  | .ok grammar =>
    match grammar.verify start with
    | .error problem => breakDown complaints problem
    | .ok () =>
      match grammar.page with
      | none => breakDown complaints "the grammar cannot be drawn"
      | some page =>
        { exit := 0, output := Page.html page ++ "\n", errors := complaints ++ reminder }

def drawUsage : Bytes :=
  "usage: railroad <grammar.ebnf> <start>\nGenerates railroad diagrams from an EBNF grammar.\n"

def drawTool (files : Files) (words : List Bytes) : Trail :=
  match words with
  | name :: start :: _ =>
    match files.find name with
    | .error why => breakDown [] (Files.openMessage name why)
    | .ok (.file text) => drawText name text [] start
    | .ok .directory =>
      drawText name [] (name ++ ":1:1: " ++ Files.directoryMessage name ++ "\n") start
  | _ => { exit := 2, errors := drawUsage }

end Backtrack.Ebnf
