import Backtrack.Decimal.Numeral
import Backtrack.Toml.Moment

/-!
# TOML values

The values of a TOML document, and the ones that are written as a single word: numbers, truth values
and points in time.
-/

namespace Backtrack.Toml

inductive Value where
  | string (text : Bytes)
  | integer (i : Int)
  | float (f : Binary64)
  | boolean (b : Bool)
  | time (moment : Moment)
  | array (elements : List Value)
  | tables (elements : List (List (Bytes × Value)))
  | table (entries : List (Bytes × Value))

def Value.isTable : Value → Bool
  | .table _ => true
  | _ => false

/-- Digits without the low lines between them; a low line must have a digit at either side. -/
def plainDigits? (isDigit : UInt8 → Bool) (text : Bytes) : Option Bytes :=
  let pieces := Bytes.splitOn 95 text
  if pieces.all fun piece => !piece.isEmpty && piece.all isDigit then some pieces.flatten else none

def wholeDigits? (text : Bytes) : Option Bytes :=
  (plainDigits? Bytes.isDigit text).bind fun digits =>
    match digits with
    | 48 :: _ :: _ => none
    | _ => some digits

def isDigitIn (base : Nat) (b : UInt8) : Bool := (Bytes.digit? base b).isSome

def int64? (i : Int) : Option Value :=
  if Decimal.minInt ≤ i ∧ i ≤ Decimal.maxInt then some (.integer i) else none

def markedInteger? (base : Nat) (digits : Bytes) : Option Value := do
  let digits ← plainDigits? (isDigitIn base) digits
  int64? (← Bytes.numberIn? base digits)

def integer? : Bytes → Option Value
  | 48 :: 120 :: digits => markedInteger? 16 digits
  | 48 :: 111 :: digits => markedInteger? 8 digits
  | 48 :: 98 :: digits => markedInteger? 2 digits
  | text => do
    let (negative, digits) := Decimal.splitSign text
    let n : Int := Bytes.digitsValue (← wholeDigits? digits)
    int64? (if negative then -n else n)

/-- The digits of an exponent with its letter and sign, without low lines. -/
def exponent? (text : Bytes) : Option Bytes :=
  match text with
  | [] => some []
  | e :: rest =>
    let sign := rest.take (rest.length - (Decimal.splitSign rest).2.length)
    (plainDigits? Bytes.isDigit (Decimal.splitSign rest).2).map fun digits => e :: sign ++ digits

/-- A number with a point, an exponent, or both, or one that is not finite. -/
def float? (text : Bytes) : Option Value :=
  let (negative, rest) := Decimal.splitSign text
  if rest = Bytes.ofString "inf" then some (.float (.infinity negative))
  else if rest = Bytes.ofString "nan" then some (.float .nan)
  else do
    let isMark (b : UInt8) : Bool := b = 46 || b = 101 || b = 69
    let whole ← wholeDigits? (rest.takeWhile fun b => !isMark b)
    let rest := rest.dropWhile fun b => !isMark b
    let isExponent (b : UInt8) : Bool := b = 101 || b = 69
    let (part, rest) ←
      match rest with
      | 46 :: rest => do
        let part ← plainDigits? Bytes.isDigit (rest.takeWhile fun b => !isExponent b)
        pure (46 :: part, rest.dropWhile fun b => !isExponent b)
      | _ => pure ([], rest)
    let exponent ← exponent? rest
    if part.isEmpty && exponent.isEmpty then none
    else
      let sign : Bytes := if negative then "-" else []
      match Decimal.readFloat (sign ++ whole ++ part ++ exponent) with
      | .ok f => some (.float f)
      | .error _ => none

def word? (text : Bytes) : Option Value :=
  if text = Bytes.ofString "true" then some (.boolean true)
  else if text = Bytes.ofString "false" then some (.boolean false)
  else
    match integer? text with
    | some v => some v
    | none =>
      match float? text with
      | some v => some v
      | none => (moment? text).map .time

end Backtrack.Toml
