import Backtrack.Decimal.Format
import Backtrack.Json.Escape
import Backtrack.Json.Value

/-!
# Printing JSON

Values are printed without blanks, or on several lines with indentation. A number that is not finite
has no JSON form, and then nothing is printed.
-/

namespace Backtrack.Json

/-- How numbers are written in JSON: the shortest digits, positional for exponents from -6 up to
20. -/
def numberFormat : Decimal.Format where
  digits := Decimal.shortest
  render d :=
    if -6 ≤ d.exponent ∧ d.exponent < 21 then d.positional else shortExponent (d.scientific 0)
  infinity := "+Inf"
where
  shortExponent (t : Bytes) : Bytes :=
    match t.reverse with
    | d :: 48 :: 45 :: rest => (d :: 45 :: rest).reverse
    | _ => t

structure Unsupported where
  number : Binary64

def Unsupported.message (u : Unsupported) : Bytes :=
  "json: unsupported value: " ++ numberFormat.text u.number

def encodeFloat (f : Binary64) : Except Unsupported Bytes :=
  if f.isNaN || f.isInfinite then .error ⟨f⟩ else .ok (numberFormat.text f)

def encodeBool (b : Bool) : Bytes := if b then "true" else "false"

namespace Value

mutual

def compact : Value → Except Unsupported Bytes
  | null | other _ => .ok "null"
  | bool b => .ok (encodeBool b)
  | int i => .ok (Bytes.ofInt i)
  | float f => encodeFloat f
  | string s => .ok (encode s)
  | array elements => do
    let items ← compactElements elements
    return "[" ++ Bytes.join "," items ++ "]"
  | object members => do
    let items ← compactMembers members
    return "\x7b" ++ Bytes.join "," items ++ "\x7d"

def compactElements : List Value → Except Unsupported (List Bytes)
  | [] => .ok []
  | v :: vs => do
    let item ← v.compact
    return item :: (← compactElements vs)

def compactMembers : List (Bytes × Value) → Except Unsupported (List Bytes)
  | [] => .ok []
  | (key, v) :: members => do
    let item ← v.compact
    return (encode key ++ ":" ++ item) :: (← compactMembers members)

end

def text (v : Value) : Bytes :=
  match v.compact with
  | .ok t => t
  | .error u => u.message

def block (opening closing indent : Bytes) (items : List Bytes) : Bytes :=
  match items with
  | [] => opening ++ closing
  | _ =>
    let start : Bytes := "\n" ++ indent ++ "  "
    opening ++ start ++ Bytes.join ("," ++ start) items ++ "\n" ++ indent ++ closing

mutual

/-- A value on several lines; lines after the first start with `indent`. -/
def pretty (indent : Bytes) : Value → Except Unsupported Bytes
  | array elements => do
    return block "[" "]" indent (← prettyElements (indent ++ "  ") elements)
  | object members => do
    return block "\x7b" "\x7d" indent (← prettyMembers (indent ++ "  ") members)
  | v => v.compact

def prettyElements (indent : Bytes) : List Value → Except Unsupported (List Bytes)
  | [] => .ok []
  | v :: vs => do
    let item ← v.pretty indent
    return item :: (← prettyElements indent vs)

def prettyMembers (indent : Bytes) : List (Bytes × Value) → Except Unsupported (List Bytes)
  | [] => .ok []
  | (key, v) :: members => do
    let item ← v.pretty indent
    return (encode key ++ ": " ++ item) :: (← prettyMembers indent members)

end

end Value

end Backtrack.Json
