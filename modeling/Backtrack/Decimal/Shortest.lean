import Backtrack.Decimal.Binary64
import Backtrack.Text.Bytes

/-!
# The shortest digits of a double-precision number

The fewest decimal digits that denote a number between the two halfway points around it, and among
those the nearest; of two equally near the even one.
-/

namespace Backtrack.Decimal

/-- Digits `d₁d₂…` and the place of the point: the value is `0.d₁d₂…` times ten to the power
`point`. -/
structure Digits where
  digits : List Nat
  point : Int
  deriving DecidableEq, Repr

def digitsOf (n : Nat) : List Nat := (Bytes.ofNat n).map fun b => b.toNat - 48

def Digits.ofScaled (n : Nat) (scale : Int) : Digits :=
  if n = 0 then ⟨[], 0⟩
  else
    let all := digitsOf n
    ⟨(all.reverse.dropWhile (· = 0)).reverse, all.length + scale⟩

/-- `num / den` times ten to the power `i`, as numerator and denominator. -/
def scale10 (num den : Nat) (i : Int) : Nat × Nat :=
  if 0 ≤ i then (num * Nat.pow 10 i.toNat, den) else (num, den * Nat.pow 10 (-i).toNat)

/-- The least `k` with `num / den < 10 ^ k`, for a ratio that is not zero. `fuel` bounds the search
below one. -/
def magnitude (num den : Nat) : (fuel : Nat) → Int
  | 0 => 0
  | fuel + 1 =>
    if den ≤ num then (Bytes.ofNat (num / den)).length
    else magnitude (10 * num) den fuel - 1

/-- A number and the two halfway points around it over one denominator. -/
structure Interval where
  low : Nat
  mid : Nat
  high : Nat
  den : Nat
  /-- Whether the halfway points round to the number. -/
  closed : Bool

/-- The interval around a positive finite number. Below a power of two the numbers are closer. -/
def Interval.of (x : Binary64) : Interval :=
  let m := x.mantissa
  let closer := x.fraction = 0 && 1 < x.field
  let at2 (n : Nat) : Nat := (Binary64.scale2 n 1 x.exponent).1
  ⟨at2 (4 * m - if closer then 1 else 2), at2 (4 * m), at2 (4 * m + 2),
    4 * (Binary64.scale2 1 1 x.exponent).2, m % 2 = 0⟩

/-- Whether `n` on a grid lies in the interval; the arguments are scaled to the grid. -/
def Interval.holds (i : Interval) (low high den n : Nat) : Bool :=
  if i.closed then low ≤ n * den && n * den ≤ high else low < n * den && n * den < high

/-- The nearest point of the grid of multiples of `10 ^ scale` that lies in the interval. -/
def Interval.onGrid? (i : Interval) (scale : Int) : Option Nat :=
  let (low, den) := scale10 i.low i.den (-scale)
  let (mid, _) := scale10 i.mid i.den (-scale)
  let (high, _) := scale10 i.high i.den (-scale)
  let below := mid / den
  let rest := 2 * (mid % den)
  match i.holds low high den below, i.holds low high den (below + 1) with
  | true, true =>
    some (if rest < den || (rest = den && below % 2 = 0) then below else below + 1)
  | true, false => some below
  | false, true => some (below + 1)
  | false, false => none

/-- Looks for a hit on finer and finer grids, beginning with `n` digits. Seventeen are enough. -/
def Interval.search (i : Interval) (top : Int) : (fuel n : Nat) → Digits
  | 0, _ => ⟨[], 0⟩
  | fuel + 1, n =>
    match i.onGrid? (top - n) with
    | some hit => .ofScaled hit (top - n)
    | none => i.search top fuel (n + 1)

def shortest (x : Binary64) : Digits :=
  if x.isZero then ⟨[], 0⟩
  else
    let i := Interval.of x
    i.search (magnitude i.mid i.den 400) 20 1

/-- The magnitude of a finite number rounded to `n` significant digits, a tie going to the even
one. -/
def rounded (n : Nat) (x : Binary64) : Digits :=
  if x.isZero then ⟨[], 0⟩
  else
    let i := Interval.of x
    let scale := magnitude i.mid i.den 400 - n
    let (num, den) := scale10 i.mid i.den (-scale)
    .ofScaled (Binary64.roundDiv num den) scale

end Backtrack.Decimal
