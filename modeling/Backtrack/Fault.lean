import Backtrack.Regex.Error

/-!
# Faults

What stops a run without an outcome: a grammar that was put together wrongly, or that is asked to
read outside the text.
-/

namespace Backtrack

inductive Fault where
  | outOfRange
  | undefinedReference
  /-- A repetition asks for more values than can be held. -/
  | unholdable
  | invalidBounds (least most : Int)
  | invalidPattern (error : Regex.Error)
  deriving DecidableEq, Repr

/-- The wording of a fault, for those that are mistakes in building a grammar. -/
def Fault.message? : Fault → Option Bytes
  | outOfRange | undefinedReference | unholdable => none
  | invalidBounds least most =>
    some ("parsec: invalid Repeat bounds min=" ++ Bytes.ofInt least ++ " max=" ++ Bytes.ofInt most)
  | invalidPattern error => some error.message

end Backtrack
