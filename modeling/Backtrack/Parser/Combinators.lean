import Backtrack.Parser.Basic
import Backtrack.Regex.Match

/-!
# Combinators

The building blocks of parsers and the ways to combine them, as operations on runs.
-/

namespace Backtrack

/-- How often a repetition may match: at least `least` times, and at most `most` times if that is
given. -/
structure Bounds where
  least : Nat
  most : Option Nat
  /-- How many values can be held, if there is a limit. -/
  room : Option Nat
  valid : ∀ m ∈ most, least ≤ m

namespace Bounds

def any : Bounds := ⟨0, none, none, by simp⟩

def some : Bounds := ⟨1, none, none, by simp⟩

/-- Bounds given as integers, of which a negative upper one means that there is none. -/
def ofInts (least most : Int) (room : Option Nat) : Except Fault Bounds :=
  if least < 0 then .error (.invalidBounds least most)
  else if most < 0 then .ok ⟨least.toNat, none, room, by simp⟩
  else if h : least.toNat ≤ most.toNat then .ok ⟨least.toNat, most.toNat, room, by simpa using h⟩
  else .error (.invalidBounds least most)

/-- How many values of a size can be held in the memory that can be addressed. -/
def roomFor (size : Nat) : Option Nat := if size = 0 then none else Nat.pow 2 48 / size

/-- The values of the mandatory matches can be held, for which room is made at the start. -/
def Holdable (bounds : Bounds) : Prop := ∀ room ∈ bounds.room, bounds.least ≤ room

instance (bounds : Bounds) : Decidable bounds.Holdable :=
  inferInstanceAs (Decidable (∀ room ∈ bounds.room, bounds.least ≤ room))

end Bounds

/-- What an error message says, given the input and the offset where a parser missed. Nothing is
said by `none`. -/
abbrev Diagnostic := Input → Int → Except Fault (Option Error)

namespace Parser

variable {α β : Type}

def satisfy (condition : Char → Bool) : Parser Char := fun input offset =>
  .ofExcept (input.char? offset) fun
    | none => .miss offset
    | some (c, width) => if condition c then .success c (offset + width) else .miss offset

def literal (text : Bytes) : Parser Bytes := fun input offset =>
  .ofExcept (input.place? offset) fun place =>
    if input.slice place (place + text.length) = text then .success text (offset + text.length)
    else .miss offset

def pattern (r : Regex) : Parser Bytes := fun input offset =>
  .ofExcept (input.place? offset) fun place =>
    match r.findEnd? input.text place with
    | some stop => .success (input.slice place stop) stop
    | none => .miss offset

def atEnd : Parser Unit := fun input offset =>
  if offset = input.size then .success () offset else .miss offset

def always (value : α) : Parser α := fun _ offset => .success value offset

def never : Parser α := fun _ offset => .miss offset

def fault (f : Fault) : Parser α := fun _ _ => .fault f

def and (p : Parser α) (q : Parser β) : Parser (α × β) := fun input offset =>
  (p input offset).onSuccess fun a middle =>
    (q input middle).onSuccess fun b next => .success (a, b) next

/-- Some parsers one after another; `values` are those matched before, latest first. -/
def sequenceFrom (values : List α) : List (Parser α) → Parser (List α)
  | [] => fun _ offset => .success values.reverse offset
  | p :: ps => fun input offset =>
    (p input offset).onSuccess fun a next => sequenceFrom (a :: values) ps input next

def sequence (ps : List (Parser α)) : Parser (List α) := sequenceFrom [] ps

def map (f : α → β) (p : Parser α) : Parser β := fun input offset =>
  (p input offset).onSuccess fun a next => .success (f a) next

/-- Changes the value of a match, or rejects it with an error that is placed where the match
starts. -/
def mapErr (f : α → Except Error β) (p : Parser α) : Parser β := fun input offset =>
  (p input offset).onSuccess fun a next =>
    match f a with
    | .ok b => .success b next
    | .error error => .ofExcept (input.annotate offset error) .fatal

/-- Misses where the value of a match does not satisfy a condition. -/
def filter (condition : α → Bool) (p : Parser α) : Parser α := fun input offset =>
  (p input offset).onSuccess fun a next => if condition a then .success a next else .miss offset

/-- One parser, and then another that depends on the value of the first. -/
def flatMap (p : Parser α) (f : α → Parser β) : Parser (α × β) := fun input offset =>
  (p input offset).onSuccess fun a middle =>
    (f a input middle).onSuccess fun b next => .success (a, b) next

/-- The first parser, or the second where the first misses. If both miss, the later miss counts. -/
def or (p q : Parser α) : Parser α := fun input offset =>
  (p input offset).onMiss fun missed =>
    (q input offset).onMiss fun other => .miss (if other < missed then missed else other)

/-- The first of some parsers that does not miss; `furthest` is the latest miss so far. -/
def oneOfFrom (furthest : Int) : List (Parser α) → Parser α
  | [] => fun _ _ => .miss furthest
  | p :: ps => fun input offset =>
    (p input offset).onMiss fun missed =>
      oneOfFrom (if furthest < missed then missed else furthest) ps input offset

/-- The first of some parsers that does not miss. If all miss, the latest miss counts. -/
def oneOf (ps : List (Parser α)) : Parser α := fun input offset => oneOfFrom offset ps input offset

/-- Exactly `n` matches, and then what follows. `values` are those matched before, latest first. -/
def repeatExactly (p : Parser α) (rest : List α → Parser (List α)) :
    (n : Nat) → (values : List α) → Parser (List α)
  | 0, values => rest values
  | n + 1, values => fun input offset =>
    (p input offset).onSuccess fun a next => repeatExactly p rest n (a :: values) input next

def repeatUpTo (p : Parser α) (input : Input) :
    (n : Nat) → (values : List α) → (trace : Trace) → (offset : Int) → Run (List α)
  | 0, values, trace, offset => { outcome := .success values.reverse offset, trace := trace }
  | n + 1, values, trace, offset =>
    let r := p input offset
    let trace := trace.append r.trace
    match r.outcome with
    | .success a next => repeatUpTo p input n (a :: values) trace next
    | .miss _ => { outcome := .success values.reverse offset, trace := trace }
    | .fatal error => { outcome := .fatal error, trace := trace }
    | .halted why => { outcome := .halted why, trace := trace }

/-- Any number of matches, as many as there are; a match that consumes nothing ends the repetition
and does not count. `fuel` bounds their number. -/
def repeatMany (p : Parser α) (input : Input) :
    (fuel : Nat) → (values : List α) → (trace : Trace) → (offset : Int) → Run (List α)
  | 0, _, trace, _ => { outcome := .halted .outOfFuel, trace := trace }
  | fuel + 1, values, trace, offset =>
    let r := p input offset
    let trace := trace.append r.trace
    match r.outcome with
    | .success a next =>
      if next = offset then { outcome := .success values.reverse offset, trace := trace }
      else repeatMany p input fuel (a :: values) trace next
    | .miss _ => { outcome := .success values.reverse offset, trace := trace }
    | .fatal error => { outcome := .fatal error, trace := trace }
    | .halted why => { outcome := .halted why, trace := trace }

/-- Repeated matches. The mandatory ones come first and must not miss; then there are as many as the
bounds allow. Without an upper bound every further match consumes something, so there are no more of
them than bytes. -/
def repeated (bounds : Bounds) (p : Parser α) : Parser (List α) := fun input offset =>
  if bounds.Holdable then
    repeatExactly p
      (fun values input next =>
        match bounds.most with
        | none => repeatMany p input ((input.size - next).toNat + 1) values .nil next
        | some most => repeatUpTo p input (most - bounds.least) values .nil next)
      bounds.least [] input offset
  else .fault .unholdable

/-- A match, or a default value where there is none. -/
def optional (default : α) (p : Parser α) : Parser α := fun input offset =>
  (p input offset).onMiss fun _ => .success default offset

def lookahead (p : Parser α) : Parser α := fun input offset =>
  (p input offset).onSuccess fun a _ => .success a offset

/-- Matches the empty text where another parser misses. -/
def not (p : Parser α) : Parser Unit := fun input offset =>
  let r := p input offset
  match r.outcome with
  | .success .. => { outcome := .miss offset, trace := r.trace }
  | .miss _ => { outcome := .success () offset, trace := r.trace }
  | .fatal error => { outcome := .fatal error, trace := r.trace }
  | .halted why => { outcome := .halted why, trace := r.trace }

/-- Turns a miss into an error, placed where the miss was noticed unless it has a place already. -/
def commit (diagnostic : Diagnostic) (p : Parser α) : Parser α := fun input offset =>
  (p input offset).onMiss fun missed =>
    .ofExcept (do input.annotate missed (← diagnostic input missed)) .fatal

def named (name : Bytes) (p : Parser α) : Parser α := fun input offset =>
  let r := p input offset
  { r with trace := .named name offset r.trace r.outcome.exit }

def matchedText (p : Parser α) : Parser Bytes := fun input offset =>
  (p input offset).onSuccess fun _ next =>
    .ofExcept (input.place? offset) fun place => .success (input.slice place next.toNat) next

end Parser

end Backtrack
