import Backtrack.Text.Bytes

/-!
# Dates and times of day

Readers for the parts of a point in time. Each takes the bytes from a place on and answers those
that are left.
-/

namespace Backtrack.Calendar

def oneOrTwoDigits? : Bytes → Option (Nat × Bytes)
  | a :: rest =>
    if !Bytes.isDigit a then none
    else
      match rest with
      | b :: more =>
        if Bytes.isDigit b then some (Bytes.digitsValue [a, b], more)
        else some (Bytes.digitsValue [a], rest)
      | [] => some (Bytes.digitsValue [a], [])
  | [] => none

def skip? (b : UInt8) : Bytes → Option Bytes
  | c :: rest => if c = b then some rest else none
  | [] => none

def daysOf (year month : Nat) : Nat :=
  if month = 2 then (if year % 4 = 0 ∧ (year % 100 ≠ 0 ∨ year % 400 = 0) then 29 else 28)
  else if month = 4 ∨ month = 6 ∨ month = 9 ∨ month = 11 then 30 else 31

def date? (text : Bytes) : Option Bytes := do
  let year := Bytes.digitsValue (text.take 4)
  let rest ← skip? 45 (text.drop 4)
  let (month, rest) ← oneOrTwoDigits? rest
  let rest ← skip? 45 rest
  let (day, rest) ← oneOrTwoDigits? rest
  if 1 ≤ month ∧ month ≤ 12 ∧ 1 ≤ day ∧ day ≤ daysOf year month then some rest else none

/-- The rest behind a time of day, which may have a fraction of a second. -/
def clock? (text : Bytes) : Option Bytes := do
  let (hour, rest) ← oneOrTwoDigits? text
  let (minute, rest) ← oneOrTwoDigits? (← skip? 58 rest)
  let (second, rest) ← oneOrTwoDigits? (← skip? 58 rest)
  let rest :=
    match rest with
    | point :: b :: more =>
      if (point = 46 || point = 44) && Bytes.isDigit b then more.dropWhile Bytes.isDigit else rest
    | _ => rest
  if hour < 24 ∧ minute < 60 ∧ second < 60 then some rest else none

def isZone : Bytes → Bool
  | [90] => true
  | [sign, a, b, 58, c, d] =>
    (sign = 43 || sign = 45) && [a, b, c, d].all Bytes.isDigit && Bytes.digitsValue [a, b] ≤ 24
      && Bytes.digitsValue [c, d] ≤ 60
  | _ => false

end Backtrack.Calendar
