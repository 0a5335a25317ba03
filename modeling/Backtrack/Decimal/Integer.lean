import Backtrack.Text.Quoted

/-!
# Reading integers

Decimal integers of 64 bits with an optional sign.
-/

namespace Backtrack.Decimal

inductive Defect where
  | malformed
  | outOfRange
  deriving DecidableEq, Repr

def Defect.message : Defect → Bytes
  | malformed => "invalid syntax"
  | outOfRange => "value out of range"

def failure (reader text : Bytes) (d : Defect) : Bytes :=
  "strconv." ++ reader ++ ": parsing " ++ Text.quoted text ++ ": " ++ d.message

def maxInt : Int := Nat.pow 2 63 - 1

def minInt : Int := -Nat.pow 2 63

def splitSign : Bytes → Bool × Bytes
  | 43 :: rest => (false, rest)
  | 45 :: rest => (true, rest)
  | text => (false, text)

def integer? (text : Bytes) : Option Int :=
  let (negative, digits) := splitSign text
  if digits.isEmpty || !digits.all Bytes.isDigit then none
  else
    let n : Int := Bytes.digitsValue digits
    some (if negative then -n else n)

def readInt (text : Bytes) : Except Defect Int :=
  match integer? text with
  | none => .error .malformed
  | some i => if minInt ≤ i ∧ i ≤ maxInt then .ok i else .error .outOfRange

/-- The integer that a text denotes, forced into 64 bits, and zero if it denotes none. -/
def clampInt (text : Bytes) : Int :=
  match integer? text with
  | none => 0
  | some i => max minInt (min maxInt i)

end Backtrack.Decimal
