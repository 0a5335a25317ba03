import Backtrack.Text.Quoted

/-!
# Positions

A place in a named text: byte offset, line and column. Lines and columns count from one, and a
column counts characters. A position that says nothing has line and column zero.
-/

namespace Backtrack

structure Position where
  filename : Bytes := []
  offset : Int := 0
  line : Int := 0
  column : Int := 0
  deriving DecidableEq, Repr

namespace Position

def describe (p : Position) : Bytes :=
  let place : Bytes := Bytes.ofInt p.line ++ ":" ++ Bytes.ofInt p.column
  if p.filename.isEmpty then place else p.filename ++ ":" ++ place

def detail (p : Position) : Bytes :=
  "Position\x7bFilename: " ++ Text.quoted p.filename ++ ", Offset: " ++ Bytes.ofInt p.offset ++
    ", Line: " ++ Bytes.ofInt p.line ++ ", Column: " ++ Bytes.ofInt p.column ++ "\x7d"

/-- A message behind the place it speaks of, as far as that is known. -/
def report (p : Position) (message : Bytes) : Bytes :=
  let name : Bytes := if p.filename.isEmpty then [] else p.filename ++ ":"
  let place : Bytes :=
    if p.line = 0 ∧ p.column = 0 then []
    else Bytes.ofInt p.line ++ ":" ++ Bytes.ofInt p.column ++ ":"
  if (name ++ place).isEmpty then message else name ++ place ++ " " ++ message

end Position

end Backtrack
