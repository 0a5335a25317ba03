import Backtrack.Decimal.Numeral
import Backtrack.Evaluation
import Backtrack.Json.Escape
import Backtrack.Json.Value
import Backtrack.Parser.Term

/-!
# The JSON grammar

Spaces may stand around every token. Once a bracket or brace is open, whatever is missing is an
error that says what was expected.
-/

namespace Backtrack.Json

inductive Rule where
  | value
  deriving DecidableEq, Repr

abbrev Rule.type : Rule → Type
  | .value => Value

abbrev Grammar := Term Rule.type

/-- A number: digits with or without a point among them, and perhaps a sign and an exponent. -/
def numberPattern : Regex :=
  let sign : Regex := .opt true (.chars (.ofString "+-"))
  let digits : Regex := .plus true (.chars .digit)
  let fraction : Regex := .seqs [.star true (.chars .digit), .chars (.single '.'), digits]
  let exponent : Regex := .seqs [.chars (.ofString "eE"), sign, digits]
  .anchored (.seqs [sign, .alt fraction digits, .opt true exponent])

/-- One item of a string: a character that needs no escape, a short escape, or a code unit. -/
def stringItem : Regex :=
  .alts [
    .chars (.complement (.ranges [(0x22, 0x22), (0, 0x1F), (0x7F, 0x7F), (0x5C, 0x5C)])),
    .seq (.chars (.single '\\')) (.chars (.ofString "\\\"/bfnrt")),
    .seqs [.chars (.single '\\'), .chars (.single 'u'),
      .count true 4 (some 4) (.chars (.ranges [(97, 102), (65, 70), (48, 57)]))]]

def stringPattern : Regex :=
  let quote : Regex := .chars (.single '\x22')
  .anchored (.seqs [quote, .star true stringItem, quote])

def readNumber (text : Bytes) : Except Error Value :=
  if text.any fun b => b = Bytes.ascii '.' || b = Bytes.ascii 'e' || b = Bytes.ascii 'E' then
    match Decimal.readFloat text with
    | .ok f => .ok (.float f)
    | .error d =>
      .error (.wrapped ("invalid number " ++ text) (.plain (Decimal.failure "ParseFloat" text d)))
  else
    match Decimal.readInt text with
    | .ok i => .ok (.int i)
    | .error d =>
      .error (.wrapped ("invalid integer " ++ text) (.plain (Decimal.failure "ParseInt" text d)))

def readString (text : Bytes) : Except Error Bytes :=
  match decode text with
  | .ok s => .ok s
  | .error e => .error (.plain e.message)

def token (c : Char) : Grammar Char := (Term.char c).trim

/-- One match or more with commas between them; behind a comma a match is required. -/
def commaList {α : Type} (p : Grammar α) (what : Bytes) : Grammar (List α) :=
  (p.and ((token ',').skipLeft (p.expect what)).many0).map Term.consPair

def bracketed {α : Type} (opening closing : Char) (p : Grammar α)
    (what closingOrWhat closingOrComma : Bytes) :
    Grammar (List α) :=
  (token opening).skipLeft <| Term.expect closingOrWhat <| Term.choice [
    (token closing).value [],
    (commaList p what).skipRight ((token closing).expect closingOrComma)]

def string : Grammar Bytes := (Term.pattern stringPattern).mapErr readString

def array : Grammar Value :=
  (bracketed '[' ']' (.ref Rule.value) "value" "value or \"]\"" "\",\" or \"]\"").map .array

def member : Grammar (Bytes × Value) :=
  string.trim.and (((token ':').expect "\":\"").skipLeft ((Term.ref Rule.value).expect "value"))

def object : Grammar Value :=
  (bracketed '\x7b' '\x7d' member "string" "string or \"\x7d\"" "\",\" or \"\x7d\"").map .object

def value : Grammar Value :=
  Term.trim <| Term.choice [
    .named "number" ((Term.pattern numberPattern).mapErr readNumber),
    .named "string" (string.map .string),
    .named "bool"
      ((Term.literals ["true", "false"]).map fun t => .bool (t = Bytes.ofString "true")),
    .named "null" ((Term.literal "null").value .null),
    .named "array" array,
    .named "object" object]

def definitions : Definitions Rule.type
  | .value => some value

def parser : Parser Value := definitions.parser 1 value

def parse (text : Bytes) (requests : List Setting) : Evaluation Value :=
  parser.evaluate text requests

end Backtrack.Json
