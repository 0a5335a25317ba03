import Backtrack.Json.Value
import Backtrack.Proofs.Decimal.Numerals
import Backtrack.Proofs.Json.Escape

/-!
# The language of JSON documents

Which texts are JSON documents, and of which values, without reference to any way of reading them.
The number of a numeral with a point or an exponent is the nearest double-precision number. Members
of objects keep their order, and keys may occur more than once.
-/

namespace Backtrack.Json

open Numerals Text

/-- A numeral and the value it denotes: an integer of 64 bits, or a double-precision number. -/
inductive NumberToken : Value → Bytes → Prop where
  | int {sign digits : Bytes} (hsign : Sign sign) (hdigits : Digits digits)
      (hmin : -2 ^ 63 ≤ signedValue sign digits) (hmax : signedValue sign digits ≤ 2 ^ 63 - 1) :
      NumberToken (.int (signedValue sign digits)) (sign ++ digits)
  | float {t : Bytes} {f : Binary64} (ht : Numeral t) (hmark : t.any isFractionMark = true)
      (hf : Decimal.readFloat t = .ok f) : NumberToken (.float f) t

def StringToken (s t : Bytes) : Prop :=
  ∃ items : List StringItem, s = StringItem.text items ∧
    t = Bytes.ascii '\x22' :: items.flatMap StringItem.bytes ++ [Bytes.ascii '\x22']

section Lists

variable {α : Type}

inductive Commas (L : α → Bytes → Prop) : List α → Bytes → Prop where
  | one {a : α} {t : Bytes} (h : L a t) : Commas L [a] t
  | more {a : α} {as : List α} {t comma u : Bytes} (h : L a t)
      (hcomma : Spaced [Bytes.ascii ','] comma) (hrest : Commas L as u) :
      Commas L (a :: as) (t ++ comma ++ u)

/-- Texts of a language, separated by commas, in brackets. -/
inductive Bracketed (opening closing : Char) (L : α → Bytes → Prop) : List α → Bytes → Prop where
  | empty {left right : Bytes} (hleft : Spaced [Bytes.ascii opening] left)
      (hright : Spaced [Bytes.ascii closing] right) : Bracketed opening closing L [] (left ++ right)
  | list {as : List α} {left t right : Bytes} (hleft : Spaced [Bytes.ascii opening] left)
      (h : Commas L as t) (hright : Spaced [Bytes.ascii closing] right) :
      Bracketed opening closing L as (left ++ t ++ right)

end Lists

inductive MemberOf (L : Value → Bytes → Prop) : Bytes × Value → Bytes → Prop where
  | mk {name token key colon : Bytes} {v : Value} {t : Bytes} (hname : StringToken name token)
      (hkey : Spaced token key) (hcolon : Spaced [Bytes.ascii ':'] colon) (h : L v t) :
      MemberOf L (name, v) (key ++ colon ++ t)

/-- A text is a JSON document, and this is its value. -/
inductive Written : Value → Bytes → Prop where
  | number {v : Value} {token t : Bytes} (h : NumberToken v token) (ht : Spaced token t) :
      Written v t
  | string {s token t : Bytes} (h : StringToken s token) (ht : Spaced token t) :
      Written (.string s) t
  | true {t : Bytes} (ht : Spaced "true" t) : Written (.bool true) t
  | false {t : Bytes} (ht : Spaced "false" t) : Written (.bool false) t
  | null {t : Bytes} (ht : Spaced "null" t) : Written .null t
  | array {elements : List Value} {t : Bytes} (h : Bracketed '[' ']' Written elements t) :
      Written (.array elements) t
  | object {members : List (Bytes × Value)} {t : Bytes}
      (h : Bracketed '\x7b' '\x7d' (MemberOf Written) members t) : Written (.object members) t

end Backtrack.Json
