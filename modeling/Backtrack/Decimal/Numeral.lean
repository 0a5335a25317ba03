import Backtrack.Decimal.Binary64
import Backtrack.Decimal.Integer

/-!
# Reading decimal fractions

A numeral is a sign, digits with at most one point among them, and an exponent. It denotes the
double-precision number nearest to its value.
-/

namespace Backtrack.Decimal

/-- A decimal numeral: its value is the digits as an integer, times ten to the power `scale`. -/
structure Numeral where
  negative : Bool
  digits : Bytes
  /-- The power of ten that the last digit stands for. -/
  scale : Int

/-- An exponent: `e` or `E`, an optional sign, and digits to the end of the text. -/
def readExponent? : Bytes → Option Int
  | [] => some 0
  | b :: rest => if b = Bytes.ascii 'e' || b = Bytes.ascii 'E' then integer? rest else none

def Numeral.read? (text : Bytes) : Option Numeral :=
  let (negative, rest) := splitSign text
  let whole := rest.takeWhile Bytes.isDigit
  let rest := rest.dropWhile Bytes.isDigit
  let (part, rest) :=
    match rest with
    | 46 :: rest => (rest.takeWhile Bytes.isDigit, rest.dropWhile Bytes.isDigit)
    | _ => ([], rest)
  if whole.isEmpty && part.isEmpty then none
  else (readExponent? rest).map fun e => ⟨negative, whole ++ part, e - part.length⟩

/-- The double-precision number nearest to a numeral, unless it is too large. Magnitudes far outside
the range need no arithmetic. -/
def Numeral.round? (n : Numeral) : Option Binary64 :=
  let digits := n.digits.dropWhile (· = 48)
  let value := Bytes.digitsValue digits
  let magnitude := digits.length + n.scale
  if digits.isEmpty || magnitude < -330 then some (.zero n.negative)
  else if 310 < magnitude then none
  else if 0 ≤ n.scale then Binary64.ofRatio? n.negative (value * Nat.pow 10 n.scale.toNat) 1
  else Binary64.ofRatio? n.negative value (Nat.pow 10 (-n.scale).toNat)

def readFloat (text : Bytes) : Except Defect Binary64 :=
  match Numeral.read? text with
  | none => .error .malformed
  | some n =>
    match n.round? with
    | none => .error .outOfRange
    | some x => .ok x

end Backtrack.Decimal
