import Backtrack.Calc
import Backtrack.Proofs.Decimal.Numerals

/-!
# The language of arithmetic expressions

Which texts are expressions, and of which values, without reference to any way of reading them. The
operations on double-precision numbers are taken as they are; what counts is which of them are
applied to which operands in which order.
-/

namespace Backtrack.Calc

open Numerals Text

inductive Additive : Char → (Float → Float → Float) → Prop where
  | plus : Additive '+' (· + ·)
  | minus : Additive '-' (· - ·)

inductive Multiplicative : Char → (Float → Float → Float) → Prop where
  | times : Multiplicative '*' (· * ·)
  | divided : Multiplicative '/' (· / ·)

/-- Operands with operators between them, which associate to the left. -/
inductive Chained (Op : Char → (Float → Float → Float) → Prop) (L : Float → Bytes → Prop) :
    Float → Bytes → Prop where
  | one {x : Float} {t : Bytes} (h : L x t) : Chained Op L x t
  | more {x y : Float} {t operator u : Bytes} {c : Char} {f : Float → Float → Float}
      (h : Chained Op L x t) (hop : Op c f) (hoperator : Spaced [Bytes.ascii c] operator)
      (hy : L y u) : Chained Op L (f x y) (t ++ operator ++ u)

inductive Call (name : Bytes) (L : Float → Bytes → Prop) : Float × Float → Bytes → Prop where
  | mk {x y : Float} {word left t comma u right : Bytes} (hword : Spaced name word)
      (hleft : Spaced [Bytes.ascii '('] left) (hx : L x t)
      (hcomma : Spaced [Bytes.ascii ','] comma) (hy : L y u)
      (hright : Spaced [Bytes.ascii ')'] right) :
      Call name L (x, y) (word ++ (left ++ (t ++ (comma ++ (u ++ right)))))

inductive Factor : Float → Bytes → Prop where
  | number {token t : Bytes} {f : Binary64} (h : Mantissa token)
      (hf : Decimal.readFloat token = .ok f) (ht : Spaced token t) : Factor f.toFloat t
  | brackets {x : Float} {left t right : Bytes} (hleft : Spaced [Bytes.ascii '('] left)
      (h : Chained Additive (Chained Multiplicative Factor) x t)
      (hright : Spaced [Bytes.ascii ')'] right) : Factor x (left ++ (t ++ right))
  | negation {x : Float} {minus t : Bytes} (hminus : Spaced [Bytes.ascii '-'] minus)
      (h : Factor x t) : Factor (-x) (minus ++ t)
  | pi {t : Bytes} (ht : Spaced "PI" t) : Factor pi t
  | power {x y : Float} {t : Bytes}
      (h : Call "pow" (Chained Additive (Chained Multiplicative Factor)) (x, y) t) :
      Factor (power x y) t
  | logarithm {x base : Float} {t : Bytes}
      (h : Call "log" (Chained Additive (Chained Multiplicative Factor)) (x, base) t) :
      Factor (logarithm x / logarithm base) t

abbrev Product : Float → Bytes → Prop := Chained Multiplicative Factor

/-- A text is an expression, and this is the value of it. -/
abbrev Expression : Float → Bytes → Prop := Chained Additive Product

end Backtrack.Calc
