/-!
# Double-precision numbers

A double-precision number is its 64 bits. Rounding a ratio of natural numbers to the nearest of them
is done in exact arithmetic, a tie going to the even neighbour.
-/

namespace Backtrack

structure Binary64 where
  bits : UInt64
  deriving DecidableEq, Repr

namespace Binary64

/-- The number with the given sign, biased exponent and fraction. -/
def ofFields (negative : Bool) (field fraction : Nat) : Binary64 :=
  ⟨((if negative then Nat.pow 2 63 else 0) + field * Nat.pow 2 52 + fraction).toUInt64⟩

def negative (x : Binary64) : Bool := Nat.pow 2 63 ≤ x.bits.toNat

def field (x : Binary64) : Nat := x.bits.toNat / Nat.pow 2 52 % 2048

def fraction (x : Binary64) : Nat := x.bits.toNat % Nat.pow 2 52

def isNaN (x : Binary64) : Bool := x.field = 2047 && x.fraction ≠ 0

def isInfinite (x : Binary64) : Bool := x.field = 2047 && x.fraction = 0

def isZero (x : Binary64) : Bool := x.field = 0 && x.fraction = 0

def mantissa (x : Binary64) : Nat := if x.field = 0 then x.fraction else Nat.pow 2 52 + x.fraction

def exponent (x : Binary64) : Int := max x.field 1 - 1075

def zero (negative : Bool) : Binary64 := ofFields negative 0 0

def infinity (negative : Bool) : Binary64 := ofFields negative 2047 0

def nan : Binary64 := ofFields false 2047 (Nat.pow 2 51)

/-- The quotient rounded to the nearest natural number, a tie going to the even one. -/
def roundDiv (num den : Nat) : Nat :=
  let quotient := num / den
  let twice := 2 * (num % den)
  if twice < den || (twice = den && quotient % 2 = 0) then quotient else quotient + 1

/-- `a * 2 ^ i` over `b`, or `a` over `b * 2 ^ (-i)`, as numerator and denominator. -/
def scale2 (a b : Nat) (i : Int) : Nat × Nat :=
  if 0 ≤ i then (a * Nat.pow 2 i.toNat, b) else (a, b * Nat.pow 2 (-i).toNat)

def ratioExponent (num den : Nat) : Int :=
  let guess : Int := (Nat.log2 num : Int) - Nat.log2 den - 52
  let (n, d) := scale2 num den (-guess)
  max (if n < d * Nat.pow 2 52 then guess - 1 else guess) (-1074)

/-- The double-precision number nearest to a ratio of natural numbers, unless it is too large. The
denominator is not zero. -/
def ofRatio? (negative : Bool) (num den : Nat) : Option Binary64 :=
  if num = 0 then some (zero negative)
  else
    let e := ratioExponent num den
    let (n, d) := scale2 num den (-e)
    let m := roundDiv n d
    let (m, e) := if m = Nat.pow 2 53 then (Nat.pow 2 52, e + 1) else (m, e)
    if 971 < e then none
    else if m < Nat.pow 2 52 then some (ofFields negative 0 m)
    else some (ofFields negative (e + 1075).toNat (m - Nat.pow 2 52))

/-- The integer part of a number: what is left when the fraction is dropped. Only finite numbers
have one. -/
def truncate? (x : Binary64) : Option Int :=
  if x.isNaN || x.isInfinite then none
  else
    let (n, d) := scale2 x.mantissa 1 x.exponent
    some (if x.negative then -((n / d : Nat) : Int) else (n / d : Nat))

def ofFloat (f : Float) : Binary64 := ⟨f.toBits⟩

def toFloat (x : Binary64) : Float := Float.ofBits x.bits

end Binary64

end Backtrack
