import Backtrack.Input

/-!
# Errors

An error is a plain text, a located error that may know the input it speaks of, a text in front of
another error, or the report of an evaluation that met unexpected input. Errors form a chain: a
located error may have a cause, and a wrapped error has what it wraps. None wraps two others.
-/

namespace Backtrack

inductive Error where
  | plain (text : Bytes)
  | located (message : Bytes) (offset : Int) (input : Option Input) (cause : Option Error)
  /-- A text and a colon in front of one other error, whose text follows. -/
  | wrapped (text : Bytes) (inner : Error)
  | unexpected (position : Position) (near : Bytes) (trailing : Bool)

/-- The payload of a run that was aborted: the located errors on their own. -/
structure ParseError where
  message : Bytes
  offset : Int := 0
  /-- The input that the offset belongs to, once it is known. -/
  input : Option Input := none
  cause : Option Error := none

namespace ParseError

def toError (e : ParseError) : Error := .located e.message e.offset e.input e.cause

instance : Coe ParseError Error := ⟨toError⟩

def position (e : ParseError) : Position :=
  match e.input with
  | none => { offset := e.offset }
  | some input => input.position e.offset

def text (e : ParseError) : Bytes := e.position.report e.message

end ParseError

def unexpectedMessage (near : Bytes) (trailing : Bool) : Bytes :=
  if trailing then "unexpected trailing input " ++ near
  else if near = Input.endMark then "no match at end of input"
  else "no match (near " ++ near ++ ")"

namespace Error

def text : Error → Bytes
  | plain text => text
  | located message offset input cause => ParseError.text ⟨message, offset, input, cause⟩
  | wrapped text inner => text ++ ": " ++ inner.text
  | unexpected position near trailing => position.report (unexpectedMessage near trailing)

def unwrap : Error → Option Error
  | plain _ => none
  | located _ _ _ cause => cause
  | wrapped _ inner => some inner
  | unexpected .. => none

def parseError? : Error → Option ParseError
  | plain _ => none
  | located message offset input cause => some ⟨message, offset, input, cause⟩
  | wrapped _ inner => inner.parseError?
  | unexpected .. => none

end Error

namespace Input

/-- Places an error at an offset of this input. The outermost parse error of its chain is kept, and
gets the place only if it has none; of any other error the text is kept. Without an error the
message tells what is found at the offset. -/
def annotate (input : Input) (offset : Int) : Option Error → Except Fault ParseError
  | none => do
    let near ← input.near offset
    return { message := "unexpected input " ++ near, offset := offset, input := input }
  | some error =>
    match error.parseError? with
    | none => .ok { message := error.text, offset := offset, input := input }
    | some parseError =>
      match parseError.input with
      | some _ => .ok parseError
      | none => .ok { parseError with offset := offset, input := input }

/-- A new message in front of an error, placed at an offset of this input. -/
def wrap (input : Input) (offset : Int) (message : Bytes) (cause : Error) : ParseError :=
  { message := message ++ ": " ++ cause.text, offset := offset, input := input, cause := cause }

end Input

end Backtrack
