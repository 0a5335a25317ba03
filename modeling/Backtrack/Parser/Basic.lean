import Backtrack.Error

/-!
# Runs of a parser

A parser is a function of an input and an offset. A run of it ends in one of three outcomes: it
matches, it misses, which a caller may recover from, or it aborts with an error that no caller
intercepts. A run that breaks down has none of these and is halted.

Every run carries the trace of the named parsers it went through, as a tree.
-/

namespace Backtrack

/-- Why a run ended without an outcome of its own. -/
inductive Halt where
  | fault (fault : Fault)
  /-- The bound on the depth of references was used up. -/
  | outOfFuel
  deriving DecidableEq, Repr

/-- What a run of a parser comes to. -/
inductive Outcome (α : Type) where
  | success (value : α) (next : Int)
  /-- The parser does not match here, which was noticed at the given offset. -/
  | miss (next : Int)
  /-- The evaluation is over, because of this error. The run ends at the offset of the error: whoever
  makes this outcome says no other, and whoever hands it on changes nothing. -/
  | fatal (error : ParseError)
  | halted (why : Halt)

/-- The words for the outcomes of a run that does not break down, in a fixed order. -/
def outcomeNames : List Bytes := ["success", "recoverable", "fatal"]

def outcomeName (number : Int) : Bytes :=
  if number < 0 then "unknown" else (outcomeNames[number.toNat]?).getD "unknown"

/-- How a run of a named parser ended, as far as the trace tells. -/
inductive Exit where
  | matched (next : Int)
  | missed (next : Int)
  | aborted (error : ParseError)
  | brokenDown

def Outcome.exit {α : Type} : Outcome α → Exit
  | success _ next => .matched next
  | miss next => .missed next
  | fatal error => .aborted error
  | halted _ => .brokenDown

/-- The runs of named parsers inside a run, in the order in which they were called. -/
inductive Trace where
  | nil
  | both (first second : Trace)
  | named (name : Bytes) (offset : Int) (inner : Trace) (exit : Exit)

namespace Trace

def append : Trace → Trace → Trace
  | nil, t => t
  | s, nil => s
  | s, t => both s t

def entryLine (input : Input) (name : Bytes) (offset : Int) : Bytes :=
  (input.position offset).describe ++ " " ++ name ++ " "
    ++ (input.near offset).toOption.getD [] ++ "\n"

/-- The line written on exit; none is written by a run that breaks down. -/
def exitLine (input : Input) (name : Bytes) (offset : Int) (exit : Exit) : Bytes :=
  let start : Bytes := (input.position offset).describe ++ " " ++ name
  match exit with
  | .matched next =>
    start ++ " matched " ++ Text.quoted (input.slice offset.toNat next.toNat) ++ "\n"
  | .missed next => start ++ " no match at " ++ (input.position next).describe ++ "\n"
  | .aborted error => start ++ " fatal: " ++ error.text ++ "\n"
  | .brokenDown => []

def lines (input : Input) : Trace → List Bytes
  | nil => []
  | both s t => s.lines input ++ t.lines input
  | named name offset inner exit =>
    entryLine input name offset :: (inner.lines input ++ [exitLine input name offset exit])

def render (input : Input) (t : Trace) : Bytes := (t.lines input).flatten

end Trace

structure Run (α : Type) where
  outcome : Outcome α
  trace : Trace := .nil

namespace Run

variable {α β : Type}

def success (value : α) (next : Int) : Run α := { outcome := .success value next }

def miss (next : Int) : Run α := { outcome := .miss next }

def fatal (error : ParseError) : Run α := { outcome := .fatal error }

def fault (fault : Fault) : Run α := { outcome := .halted (.fault fault) }

def after (trace : Trace) (r : Run α) : Run α := { r with trace := trace.append r.trace }

def onSuccess (r : Run α) (next : α → Int → Run β) : Run β :=
  match r.outcome with
  | .success value offset => (next value offset).after r.trace
  | .miss offset => { outcome := .miss offset, trace := r.trace }
  | .fatal error => { outcome := .fatal error, trace := r.trace }
  | .halted why => { outcome := .halted why, trace := r.trace }

def onMiss (r : Run α) (next : Int → Run α) : Run α :=
  match r.outcome with
  | .miss offset => (next offset).after r.trace
  | _ => r

def ofExcept {ε : Type} (e : Except Fault ε) (next : ε → Run α) : Run α :=
  match e with
  | .ok x => next x
  | .error f => fault f

end Run

abbrev Parser (α : Type) := Input → Int → Run α

end Backtrack
