import Backtrack.Calc.Functions
import Backtrack.Decimal.Numeral
import Backtrack.Evaluation
import Backtrack.Parser.Term

/-!
# Arithmetic expressions

Sums of products of factors, evaluated while they are read. A factor is a number, an expression in
parentheses, a negated factor, the constant `PI`, or one of the functions `pow` and `log` of two
expressions. Spaces may stand around every token.
-/

namespace Backtrack.Calc

inductive Rule where
  | expression | factor
  deriving DecidableEq, Repr

abbrev Rule.type : Rule → Type := fun _ => Float

abbrev Grammar := Term Rule.type

def numberPattern : Regex :=
  let digits : Regex := .plus true (.chars .digit)
  .anchored (.alt (.seqs [.star true (.chars .digit), .chars (.single '.'), digits]) digits)

def readNumber (text : Bytes) : Except Error Float :=
  match Decimal.readFloat text with
  | .ok x => .ok x.toFloat
  | .error d => .error (.plain (Decimal.failure "ParseFloat" text d))

def applyOperator (acc : Float) (operation : Char × Float) : Float :=
  match operation.1 with
  | '+' => acc + operation.2
  | '-' => acc - operation.2
  | '*' => acc * operation.2
  | '/' => acc / operation.2
  | _ => acc

/-- Operands with some operators between them, evaluated from left to right. -/
def chain (operand : Grammar Float) (operators : Bytes) : Grammar Float :=
  (operand.and ((Term.charIn operators).trim.and operand).many0).map fun (first, rest) =>
    rest.foldl applyOperator first

def token (c : Char) : Grammar Char := (Term.char c).trim

def argument : Grammar Float := (Term.ref Rule.expression).expect "expression"

def function (name : Bytes) (f : Float → Float → Float) : Grammar Float :=
  let arguments := argument.and (((token ',').expect "\",\"").skipLeft argument)
  let opening := (Term.literal name).trim.and (token '(')
  .named name <| (arguments.surround opening ((token ')').expect "\")\"")).map fun (x, y) => f x y

def pi : Float := ofBits 0x400921FB54442D18

def factor : Grammar Float :=
  Term.choice [
    ((Term.pattern numberPattern).mapErr readNumber).trim,
    argument.surround (token '(') ((token ')').expect "\")\""),
    ((token '-').skipLeft (.ref Rule.factor)).map fun (x : Float) => -x,
    (Term.literal "PI").trim.value pi,
    function "pow" power,
    function "log" fun x base => logarithm x / logarithm base]

def term : Grammar Float := .named "term" (chain (.ref Rule.factor) "*/")

def expression : Grammar Float := .named "expr" (chain term "+-")

def definitions : Definitions Rule.type
  | .expression => some expression
  | .factor => some factor

def complete : Grammar Float :=
  (expression.skipRight .atEnd).commit fun input offset => do
    let near ← input.near offset
    return some { message := "unexpected " ++ near : ParseError }

def parser : Parser Float := definitions.parser 2 complete

def evaluate (text : Bytes) (requests : List Setting) : Evaluation Float :=
  parser.evaluate text requests

end Backtrack.Calc
