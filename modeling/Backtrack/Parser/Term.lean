import Backtrack.Parser.Combinators
import Backtrack.Regex.Read

/-!
# Parser terms

A grammar is written down as a term, so that it can refer to its own definitions by name and so that
something can be said about all grammars by induction. `Term.parser` gives a term its meaning once
the meaning of references is known; `Definitions.parser` closes the circle, following references to
a bounded depth.

The names are of any type `ι`, and `τ` gives the type of value behind each name.
-/

namespace Backtrack

/-- A grammar whose matches have values of the index type. -/
inductive Term {ι : Type} (τ : ι → Type) : Type → Type 1 where
  | satisfy (condition : Char → Bool) : Term τ Char
  | literal (text : Bytes) : Term τ Bytes
  | pattern (r : Regex) : Term τ Bytes
  | atEnd : Term τ Unit
  | always {α : Type} (value : α) : Term τ α
  | never {α : Type} : Term τ α
  | fault {α : Type} (f : Fault) : Term τ α
  | and {α β : Type} (p : Term τ α) (q : Term τ β) : Term τ (α × β)
  | sequence {α : Type} (n : Nat) (ps : Fin n → Term τ α) : Term τ (List α)
  | map {α β : Type} (f : α → β) (p : Term τ α) : Term τ β
  | mapErr {α β : Type} (f : α → Except Error β) (p : Term τ α) : Term τ β
  | filter {α : Type} (condition : α → Bool) (p : Term τ α) : Term τ α
  | flatMap {α β : Type} (p : Term τ α) (f : α → Term τ β) : Term τ (α × β)
  | or {α : Type} (p q : Term τ α) : Term τ α
  | oneOf {α : Type} (n : Nat) (ps : Fin n → Term τ α) : Term τ α
  | repeated {α : Type} (bounds : Bounds) (p : Term τ α) : Term τ (List α)
  | optional {α : Type} (default : α) (p : Term τ α) : Term τ α
  | lookahead {α : Type} (p : Term τ α) : Term τ α
  | not {α : Type} (p : Term τ α) : Term τ Unit
  | commit {α : Type} (diagnostic : Diagnostic) (p : Term τ α) : Term τ α
  | named {α : Type} (name : Bytes) (p : Term τ α) : Term τ α
  | ref (i : ι) : Term τ (τ i)

namespace Term

variable {ι : Type} {τ : ι → Type} {α β γ : Type}

/-- The parser that a term stands for, given those that its references stand for. -/
def parser (refs : (i : ι) → Parser (τ i)) {α : Type} : Term τ α → Parser α
  | satisfy condition => .satisfy condition
  | literal text => .literal text
  | pattern r => .pattern r
  | atEnd => .atEnd
  | always value => .always value
  | never => .never
  | fault f => .fault f
  | and p q => (p.parser refs).and (q.parser refs)
  | sequence n ps => .sequence (List.ofFn fun i : Fin n => (ps i).parser refs)
  | map f p => (p.parser refs).map f
  | mapErr f p => (p.parser refs).mapErr f
  | filter condition p => (p.parser refs).filter condition
  | flatMap p f => (p.parser refs).flatMap fun a => (f a).parser refs
  | or p q => (p.parser refs).or (q.parser refs)
  | oneOf n ps => .oneOf (List.ofFn fun i : Fin n => (ps i).parser refs)
  | repeated bounds p => (p.parser refs).repeated bounds
  | optional default p => (p.parser refs).optional default
  | lookahead p => (p.parser refs).lookahead
  | not p => (p.parser refs).not
  | commit diagnostic p => (p.parser refs).commit diagnostic
  | named name p => (p.parser refs).named name
  | ref i => refs i

def sequenceOf (ps : List (Term τ α)) : Term τ (List α) := sequence ps.length fun i => ps.get i

def choice (ps : List (Term τ α)) : Term τ α := oneOf ps.length fun i => ps.get i

def char (c : Char) : Term τ Char := satisfy (· = c)

def anyChar : Term τ Char := satisfy fun _ => true

/-- Matches a character between two code points, which may be given in either order. -/
def codeBetween (a b : Int) : Term τ Char :=
  satisfy fun c => decide (min a b ≤ c.toNat ∧ c.toNat ≤ max a b)

def charIn (set : Bytes) : Term τ Char := satisfy fun c => (Utf8.chars set).contains c

def charNotIn (set : Bytes) : Term τ Char := satisfy fun c => !(Utf8.chars set).contains c

def isSpace (c : Char) : Bool := c = ' ' || c = '\t' || c = '\r' || c = '\n'

/-- Matches a space, tab, carriage return or newline. -/
def space : Term τ Char := satisfy isSpace

def digit : Term τ Char := codeBetween 48 57

def letter : Term τ Char := or (codeBetween 97 122) (codeBetween 65 90)

def literals (texts : List Bytes) : Term τ Bytes := choice (texts.map literal)

def ofPattern (source : Bytes) : Except Fault (Term τ Bytes) :=
  match Regex.readAnchored source with
  | .ok r => .ok (pattern r)
  | .error e => .error (.invalidPattern e)

def value (b : β) (p : Term τ α) : Term τ β := p.map fun _ => b

def skipLeft (p : Term τ α) (q : Term τ β) : Term τ β := (p.and q).map Prod.snd

def skipRight (p : Term τ α) (q : Term τ β) : Term τ α := (p.and q).map Prod.fst

/-- A term between two others that do not give a value. -/
def surround (p : Term τ α) (opening : Term τ β) (closing : Term τ γ) : Term τ α :=
  (opening.skipLeft p).skipRight closing

def many0 (p : Term τ α) : Term τ (List α) := repeated .any p

def many1 (p : Term τ α) : Term τ (List α) := repeated .some p

def spaces : Term τ (List Char) := many0 space

def trim (p : Term τ α) : Term τ α := p.surround spaces spaces

def consPair (v : α × List α) : List α := v.1 :: v.2

def sepBy1 (p : Term τ α) (separator : Term τ β) : Term τ (List α) :=
  (p.and (many0 (separator.skipLeft p))).map consPair

def sepBy0 (p : Term τ α) (separator : Term τ β) : Term τ (List α) :=
  optional [] (sepBy1 p separator)

def notFollowedBy (p : Term τ α) (test : Term τ β) : Term τ α := p.skipRight test.not

def expected (message : Bytes) (p : Term τ α) : Term τ α :=
  p.commit fun _ _ => .ok (some { message := message : ParseError })

/-- Turns a miss into an error that shows what is there and tells what was expected. -/
def expect (what : Bytes) (p : Term τ α) : Term τ α :=
  p.commit fun input offset => do
    let near ← input.near offset
    let message : Bytes := "unexpected " ++ near ++ " (expected " ++ what ++ ")"
    return some { message := message : ParseError }

end Term

/-- The definitions that the references of a grammar point to; a name may be left without one. -/
abbrev Definitions {ι : Type} (τ : ι → Type) := (i : ι) → Option (Term τ (τ i))

namespace Definitions

variable {ι : Type} {τ : ι → Type}

/-- The parser of a term whose references follow the definitions, to the given depth. -/
def parserAt (defs : Definitions τ) : (depth : Nat) → {α : Type} → Term τ α → Parser α
  | 0, _, t => t.parser fun _ _ _ => { outcome := .halted .outOfFuel }
  | depth + 1, _, t =>
    t.parser fun i =>
      match defs i with
      | some body => parserAt defs depth body
      | none => .fault .undefinedReference

/-- How deep references can be nested in a run over a text, if every name is referred to at most
`names` times between two characters. -/
def depth (names : Nat) (input : Input) : Nat := (names + 1) * (input.size + 2)

/-- The parser of a term whose references follow the definitions of the given number of names. -/
def parser {α : Type} (defs : Definitions τ) (names : Nat) (t : Term τ α) : Parser α :=
  fun input offset => defs.parserAt (depth names input) t input offset

end Definitions

end Backtrack
