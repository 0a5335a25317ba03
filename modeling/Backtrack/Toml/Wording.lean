import Backtrack.Decimal.Format
import Backtrack.Text.Quoted
import Backtrack.Toml.Value

/-!
# Values in words

How messages show the values of a document: as they are, in quotes, or as literals.
-/

namespace Backtrack.Toml

def Value.typeName : Value → Bytes
  | .string _ => "string"
  | .integer _ => "int64"
  | .float _ => "float64"
  | .boolean _ => "bool"
  | .time _ => "time.Time"
  | .array _ => "[]interface \x7b\x7d"
  | .tables _ => "[]map[string]interface \x7b\x7d"
  | .table _ => "map[string]interface \x7b\x7d"

structure Summary (α : Type) where
  scalar : Value → α
  list : (type : Bytes) → List α → α
  table : List (Bytes × α) → α

def inOrder {α : Type} (entries : List (Bytes × α)) : List (Bytes × α) :=
  entries.mergeSort fun a b => !Bytes.lt b.1 a.1

mutual

def Value.summarize {α : Type} (s : Summary α) : Value → α
  | .array elements => s.list (Value.typeName (.array [])) (summarizeAll s elements)
  | .tables elements => s.list (Value.typeName (.tables [])) (summarizeTables s elements)
  | .table entries => s.table (inOrder (summarizeEntries s entries))
  | .string t => s.scalar (.string t)
  | .integer i => s.scalar (.integer i)
  | .float f => s.scalar (.float f)
  | .boolean b => s.scalar (.boolean b)
  | .time m => s.scalar (.time m)

def summarizeAll {α : Type} (s : Summary α) : List Value → List α
  | [] => []
  | v :: vs => v.summarize s :: summarizeAll s vs

def summarizeTables {α : Type} (s : Summary α) : List (List (Bytes × Value)) → List α
  | [] => []
  | entries :: rest => s.table (inOrder (summarizeEntries s entries)) :: summarizeTables s rest

def summarizeEntries {α : Type} (s : Summary α) : List (Bytes × Value) → List (Bytes × α)
  | [] => []
  | (key, v) :: entries => (key, v.summarize s) :: summarizeEntries s entries

end

def boolText (b : Bool) : Bytes := if b then "true" else "false"

def bracketed (key : Bytes → Bytes) (scalar : Value → Bytes) : Summary Bytes where
  scalar := scalar
  list := fun _ parts => "[" ++ Bytes.join " " parts ++ "]"
  table := fun entries =>
    "map[" ++ Bytes.join " " (entries.map fun (k, t) => key k ++ ":" ++ t) ++ "]"

def plainScalar : Value → Bytes
  | .string t => t
  | .integer i => Bytes.ofInt i
  | .float f => Decimal.general.text f
  | .boolean b => boolText b
  | .time m => m.shown
  | .array _ | .tables _ | .table _ => []

/-- A value without parts in quotes, as far as it can be quoted; an integer is taken for a
character. -/
def quotedScalar : Value → Bytes
  | .integer i =>
    let n := i.toNat
    Text.quotedSingle (if 0 ≤ i && n.isValidChar then Char.ofNat n else Utf8.replacement)
  | .float f => "%!q(float64=" ++ Decimal.general.text f ++ ")"
  | .boolean b => "%!q(bool=" ++ boolText b ++ ")"
  | v => Text.quoted (plainScalar v)

def literalScalar : Value → Bytes
  | .string t => Text.quoted t
  | v => plainScalar v

def literals : Summary Bytes where
  scalar := literalScalar
  list := fun type parts => type ++ "\x7b" ++ Bytes.join ", " parts ++ "\x7d"
  table := fun entries =>
    Value.typeName (.table []) ++ "\x7b"
      ++ Bytes.join ", " (entries.map fun (k, t) => Text.quoted k ++ ":" ++ t) ++ "\x7d"

def Value.plainText : Value → Bytes := Value.summarize (bracketed id plainScalar)

def Value.quotedText : Value → Bytes := Value.summarize (bracketed Text.quoted quotedScalar)

def Value.literalText : Value → Bytes := Value.summarize literals

def Value.notFinite? : Value → Option Binary64 :=
  Value.summarize {
    scalar := fun v =>
      match v with
      | .float f => if f.isNaN || f.isInfinite then some f else none
      | _ => none
    list := fun _ found => found.findSome? id
    table := fun found => found.findSome? Prod.snd }

end Backtrack.Toml
