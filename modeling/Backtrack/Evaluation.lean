import Backtrack.Parser.Combinators

/-!
# Evaluation

Evaluating a parser runs it from the start of a text and asks that it match all of it, unless
trailing text is allowed. A miss and unexplained trailing text are reported with a position and an
excerpt; an error that aborts the run is reported as it is.
-/

namespace Backtrack

inductive Setting where
  | filename (name : Bytes)
  | allowTrailing
  | trace
  | failing (error : Error)

structure Settings where
  filename : Bytes := []
  allowTrailing : Bool := false
  trace : Bool := false

def Settings.apply (s : Settings) : Setting → Except Error Settings
  | .filename name => .ok { s with filename := name }
  | .allowTrailing => .ok { s with allowTrailing := true }
  | .trace => .ok { s with trace := true }
  | .failing error => .error error

def Settings.ofList (requests : List Setting) : Except Error Settings :=
  requests.foldlM Settings.apply {}

/-- What an evaluation gives: a value or an error, unless the run was halted, and what was written
to the trace. -/
structure Evaluation (α : Type) where
  result : Except Halt (Except Error α)
  trace : Bytes := []

def Input.unexpected (input : Input) (offset : Int) (trailing : Bool) : Except Fault Error := do
  return .unexpected (input.position offset) (← input.near offset) trailing

def Outcome.judge {α : Type} (input : Input) (allowTrailing : Bool) :
    Outcome α → Except Halt (Except Error α)
  | success value next =>
    if next ≠ input.size ∧ allowTrailing = false then report next true else .ok (.ok value)
  | miss next => report next false
  | fatal error => .ok (.error error)
  | halted why => .error why
where
  report (offset : Int) (trailing : Bool) : Except Halt (Except Error α) :=
    match input.unexpected offset trailing with
    | .ok error => .ok (.error error)
    | .error f => .error (.fault f)

namespace Parser

variable {α : Type}

def evaluate (p : Parser α) (text : Bytes) (requests : List Setting) : Evaluation α :=
  match Settings.ofList requests with
  | .error error => { result := .ok (.error error) }
  | .ok settings =>
    let input := Input.ofBytes settings.filename text
    let run := p input 0
    { result := run.outcome.judge input settings.allowTrailing
      trace := if settings.trace then run.trace.render input else [] }

/-- Evaluates a parser against bytes that somebody else holds. -/
def evaluateBytes (p : Parser α) (bytes : Array UInt8) (requests : List Setting) : Evaluation α :=
  p.evaluate bytes.toList requests

/-- Evaluates a parser against what a reader delivers. The reader's name, if it has one, names the
text unless a request does. -/
def evaluateReader (p : Parser α) (name : Bytes) (content : Except Error Bytes)
    (requests : List Setting) : Evaluation α :=
  match content with
  | .error error => { result := .ok (.error error) }
  | .ok text => p.evaluate text (if name.isEmpty then requests else .filename name :: requests)

end Parser

end Backtrack
