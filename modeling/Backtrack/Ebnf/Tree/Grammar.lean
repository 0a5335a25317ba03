import Backtrack.Ebnf.Tree
import Backtrack.Evaluation
import Backtrack.Parser.Term
import Backtrack.Text.Unquote

/-!
# The grammar of grammar texts

    Production  = name "=" [ Expression ] "." .
    Expression  = Alternative { "|" Alternative } .
    Alternative = Term { Term } .
    Term        = name | token [ "…" token ] | "(" Expression ")"
                | "[" Expression "]" | "{" Expression "}" .

Spaces may stand around every token; comments may not. Once a production, a bracket or a range is
open, whatever is missing is an error that says what was expected.
-/

namespace Backtrack.Ebnf.Tree

inductive Rule where
  | expression
  deriving DecidableEq, Repr

abbrev Rule.type : Rule → Type
  | .expression => Alternatives

abbrev Grammar := Term Rule.type

/-- A letter or low line, and then letters, digits and low lines. -/
def namePattern : Regex :=
  .anchored (.seq (.chars (.ranges [(97, 122), (65, 90), (95, 95)])) (.star true (.chars .word)))

/-- A text in double quotes with backslashes in front of some characters, or a text in back
quotes. -/
def textPattern : Regex :=
  let mark (c : Char) : Regex := .chars (.single c)
  let item : Regex :=
    .alt (.seq (mark '\\') (.chars .notNewline)) (.chars (.complement (.ofString "\"\\")))
  .anchored (.alt
    (.seqs [mark '\x22', .star true item, mark '\x22'])
    (.seqs [mark '\x60', .star true (.chars (.complement (.single '\x60'))), mark '\x60']))

def unquote (text : Bytes) : Except Error Bytes :=
  match Text.unquote? text with
  | some t => .ok t
  | none => .error (.plain "invalid syntax")

def token (mark : Bytes) : Grammar Bytes := (Term.literal mark).trim

def required (mark : Bytes) : Grammar Bytes := (token mark).expect (Text.quoted mark)

def name : Grammar Bytes := (Term.pattern namePattern).trim

def text : Grammar Bytes := ((Term.pattern textPattern).mapErr unquote).trim

def literal : Grammar Factor :=
  let last : Grammar (Option Bytes) := ((token "…").skipLeft (text.expect "token")).map some
  (text.and (.optional none last)).map fun (first, last) => .literal first last

def nested (opening closing : Bytes) : Grammar Alternatives :=
  ((Term.ref Rule.expression : Grammar Alternatives).expect "expression").surround (token opening)
    (required closing)

def term : Grammar Factor :=
  .choice [
    name.map .name,
    literal,
    (nested "(" ")").map .group,
    (nested "[" "]").map .option,
    (nested "\x7b" "\x7d").map .repetition]

def expression : Grammar Alternatives := (Term.named "term" term).many1.sepBy1 (token "|")

def production : Grammar Production :=
  ((name.skipRight (required "=")).and
    ((Term.ref Rule.expression : Grammar Alternatives).many0.skipRight (required "."))).map
    fun (name, body) => ⟨name, body⟩

def document : Grammar Document :=
  (Term.named "production" production).many0.surround .spaces (Term.atEnd.expect "production")

def definitions : Definitions Rule.type
  | .expression => some expression

def parser : Parser Document := definitions.parser 1 document

def parse (filename text : Bytes) : Evaluation Document := parser.evaluate text [.filename filename]

end Backtrack.Ebnf.Tree
