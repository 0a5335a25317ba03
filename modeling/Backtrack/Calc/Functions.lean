import Backtrack.Decimal.Binary64

/-!
# Powers and logarithms

Both functions work on a fraction and a power of two apart: a logarithm is a series around one, and
a power with an integer is a product of squares. The order of the operations decides the last digit
of a result, so it is part of the definitions.
-/

namespace Backtrack.Calc

def ofBits (bits : UInt64) : Float := (Binary64.mk bits).toFloat

/-- The natural logarithm of two, in two parts of which the first has few digits. -/
def logTwo : Float × Float := (ofBits 0x3FE62E42FEE00000, ofBits 0x3DEA39EF35793C76)

def halfRootTwo : Float := ofBits 0x3FE6A09E667F3BCD

/-- A polynomial, whose coefficients are listed from the lowest to the highest. -/
def polynomial (x : Float) : List UInt64 → Float
  | [] => 0
  | [c] => ofBits c
  | c :: cs => ofBits c + x * polynomial x cs

def logOfPositive (x : Float) : Float :=
  let (fraction, exponent) := x.frExp
  let (fraction, exponent) :=
    if fraction < halfRootTwo then (fraction * 2, exponent - 1) else (fraction, exponent)
  let f := fraction - 1
  let k := Float.ofInt exponent
  let s := f / (2 + f)
  let square := s * s
  let fourth := square * square
  let odd := square * polynomial fourth
    [0x3FE5555555555593, 0x3FD2492494229359, 0x3FC7466496CB03DE, 0x3FC2F112DF3E5244]
  let even := fourth * polynomial fourth
    [0x3FD999999997FA04, 0x3FCC71C51D8E78AF, 0x3FC39A09D078C69F]
  let half := 0.5 * f * f
  k * logTwo.1 - ((half - (s * (half + (odd + even)) + k * logTwo.2)) - f)

def logarithm (x : Float) : Float :=
  if 0 < x && x.isFinite then logOfPositive x else x.log

structure Scaled where
  fraction : Float
  exponent : Int

def Scaled.square (x : Scaled) : Scaled :=
  let fraction := x.fraction * x.fraction
  if fraction < 0.5 then ⟨fraction + fraction, 2 * x.exponent - 1⟩
  else ⟨fraction, 2 * x.exponent⟩

/-- Whether no fraction can make up for the power of two. -/
def Scaled.isBeyond (x : Scaled) : Bool := x.exponent < -4096 || 4096 < x.exponent

def Scaled.timesPower (product x : Scaled) (count : Nat) : Scaled :=
  if h : count = 0 then product
  else if x.isBeyond then { product with exponent := product.exponent + x.exponent }
  else
    let product :=
      if count % 2 = 1 then
        ⟨product.fraction * x.fraction, product.exponent + x.exponent⟩
      else product
    product.timesPower x.square (count / 2)
termination_by count
decreasing_by omega

def Scaled.value (x : Scaled) : Float := x.fraction.scaleB x.exponent

/-- The power of a number other than zero and one with a finite exponent other than zero and one.
The part of the exponent behind the point is at most a half. -/
def properPower (x y : Float) : Float :=
  let size := y.abs
  let whole := size.floor
  let part := size - whole
  if part != 0 && x < 0 then 0 / 0
  else if 9223372036854775808.0 ≤ whole then Float.pow x y
  else
    let (whole, part) := if 0.5 < part then (whole + 1, part - 1) else (whole, part)
    let start : Scaled := ⟨if part == 0 then 1 else (part * logarithm x).exp, 0⟩
    let (fraction, exponent) := x.frExp
    let product := start.timesPower ⟨fraction, exponent⟩ whole.toUInt64.toNat
    if y < 0 then Scaled.value ⟨1 / product.fraction, -product.exponent⟩ else product.value

def power (x y : Float) : Float :=
  if !x.isFinite || !y.isFinite || x == 0 || x == 1 || y == 0 || y == 1 then Float.pow x y
  else if y == 0.5 then x.sqrt
  else if y == -0.5 then 1 / x.sqrt
  else properPower x y

end Backtrack.Calc
