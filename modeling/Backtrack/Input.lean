import Backtrack.Fault
import Backtrack.Position

/-!
# Inputs

The text a parser reads, with its name. Offsets are integers, because nothing keeps a caller from
starting outside the text; reading there is a fault, while positions are reported at the nearer end.
-/

namespace Backtrack

structure Input where
  filename : Bytes := []
  text : Array UInt8
  deriving DecidableEq, Repr

namespace Input

def ofBytes (filename text : Bytes) : Input := ⟨filename, text.toArray⟩

def size (input : Input) : Nat := input.text.size

def slice (input : Input) (lo hi : Nat) : Bytes := (input.text.extract lo hi).toList

/-- The offset as a place of the text, one past the last byte included. -/
def place? (input : Input) (offset : Int) : Except Fault Nat :=
  if 0 ≤ offset ∧ offset ≤ input.size then .ok offset.toNat else .error .outOfRange

def lastLine (text : Bytes) : Bytes := (text.reverse.takeWhile (· ≠ 10)).reverse

/-- The position of an offset; outside the text it is that of the nearer end. -/
def position (input : Input) (offset : Int) : Position :=
  let o := min offset.toNat input.size
  let head := input.slice 0 o
  { filename := input.filename
    offset := o
    line := head.count 10 + 1
    column := (Utf8.items (lastLine head)).length + 1 }

def excerptLength : Nat := 16

/-- The start of a text in quotes, with an ellipsis if characters are left out. -/
def excerpt (text : Bytes) : Bytes :=
  let items := Utf8.items text
  if excerptLength < items.length then
    Text.quoted ((items.take excerptLength).flatMap Utf8.Item.bytes) ++ "…"
  else Text.quoted text

def endMark : Bytes := "<EOF>"

def near (input : Input) (offset : Int) : Except Fault Bytes :=
  if input.size ≤ offset then .ok endMark
  else if offset < 0 then .error .outOfRange
  else .ok (excerpt (input.slice offset.toNat input.size))

/-- The character at an offset with its width in bytes, if the text goes on there. -/
def char? (input : Input) (offset : Int) : Except Fault (Option (Char × Nat)) :=
  if input.size ≤ offset then .ok none
  else if offset < 0 then .error .outOfRange
  else .ok (Utf8.at? input.text offset.toNat)

end Input

end Backtrack
