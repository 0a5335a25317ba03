import Backtrack.Position

/-!
# Tokens of grammar texts

A grammar text is read as identifiers, numbers, quoted literals and single characters. Comments and
spaces separate tokens. Whatever is wrong with a token is a complaint on the side; the token stands
all the same.
-/

namespace Backtrack.Ebnf

inductive Kind where
  | ending | identifier | integer | decimal | character | string | raw
  | mark (c : Char)
  deriving DecidableEq, Repr

def Kind.name : Kind → Bytes
  | ending => "EOF"
  | identifier => "Ident"
  | integer => "Int"
  | decimal => "Float"
  | character => "Char"
  | string => "String"
  | raw => "RawString"
  | mark c => Text.quoted (Utf8.encode c)

structure Token where
  kind : Kind
  position : Position
  text : Bytes
  deriving Repr

/-- How a token is described as found: single characters by themselves, others with their text. -/
def Token.found (t : Token) : Bytes :=
  match t.kind with
  | .mark _ => t.kind.name
  | _ => t.kind.name ++ " " ++ t.text

/-- A position in front of a message; a text without a name is called the input. -/
def describe (p : Position) : Bytes :=
  let name : Bytes := if p.filename.isEmpty then "<input>" else p.filename
  if 0 < p.line then name ++ ":" ++ Bytes.ofInt p.line ++ ":" ++ Bytes.ofInt p.column else name

def messageAt (p : Position) (message : Bytes) : Bytes := describe p ++ ": " ++ message

end Backtrack.Ebnf
