import Backtrack.Decimal.Shortest

/-!
# Writing double-precision numbers

Digits are written positionally or with an exponent. A format says for which exponents it does the
one or the other.
-/

namespace Backtrack.Decimal

def asciiDigits (ds : List Nat) : Bytes := ds.map fun d => (48 + d).toUInt8

def digitAt (ds : List Nat) (i : Nat) : Nat := ds[i]?.getD 0

/-- Digits written positionally, with a point if there are digits behind it. -/
def Digits.positional (d : Digits) : Bytes :=
  let whole : Bytes :=
    if 0 < d.point then asciiDigits ((List.range d.point.toNat).map (digitAt d.digits)) else "0"
  let places := (d.digits.length - d.point).toNat
  if places = 0 then whole
  else
    let zeros := (-d.point).toNat
    let part := List.replicate (min zeros places) 0 ++ d.digits.drop d.point.toNat
    whole ++ "." ++ asciiDigits part

def exponentText (e : Int) : Bytes :=
  let sign : Bytes := if e < 0 then "-" else "+"
  let digits := Bytes.ofNat e.natAbs
  "e" ++ sign ++ (if digits.length < 2 then "0" ++ digits else digits)

def Digits.exponent (d : Digits) : Int := if d.digits.isEmpty then 0 else d.point - 1

/-- Digits written with an exponent: one digit, the others behind a point, at least `places` of
them. -/
def Digits.scientific (places : Nat) (d : Digits) : Bytes :=
  let count := max places (d.digits.length - 1)
  let part := (List.range count).map fun i => digitAt d.digits (i + 1)
  let part : Bytes := if part.isEmpty then [] else "." ++ asciiDigits part
  asciiDigits [digitAt d.digits 0] ++ part ++ exponentText d.exponent

structure Format where
  digits : Binary64 → Digits
  render : Digits → Bytes
  infinity : Bytes

def Format.text (f : Format) (x : Binary64) : Bytes :=
  if x.isNaN then "NaN"
  else if x.isInfinite then (if x.negative then "-Inf" else f.infinity)
  else
    let magnitude := f.render (f.digits x)
    if x.negative then "-" ++ magnitude else magnitude

def general : Format where
  digits := shortest
  render d :=
    if d.exponent < -4 ∨ 6 ≤ d.exponent then d.scientific 0 else d.positional
  infinity := "+Inf"

def twelveDigits : Format where
  digits := rounded 12
  render d := d.scientific 11
  infinity := "+Inf"

end Backtrack.Decimal
