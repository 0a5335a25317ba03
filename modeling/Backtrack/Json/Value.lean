import Backtrack.Decimal.Binary64
import Backtrack.Text.Bytes

/-!
# JSON values

A number with a fraction or an exponent is a `float`, any other an `int`. Objects keep their members
in the order of the source, and keys may occur more than once.
-/

namespace Backtrack.Json

/-- A JSON value. `other` is a value of a kind that no text has. -/
inductive Value where
  | null
  | bool (b : Bool)
  | int (i : Int)
  | float (f : Binary64)
  | string (s : Bytes)
  | array (elements : List Value)
  | object (members : List (Bytes × Value))
  | other (kind : Int)

namespace Value

def kindNames : List Bytes := ["null", "bool", "int", "float", "string", "array", "object"]

def kindName (kind : Int) : Bytes :=
  let unknown : Bytes := "Kind(" ++ Bytes.ofInt kind ++ ")"
  if kind < 0 then unknown else (kindNames[kind.toNat]?).getD unknown

def kind : Value → Int
  | null => 0
  | bool _ => 1
  | int _ => 2
  | float _ => 3
  | string _ => 4
  | array _ => 5
  | object _ => 6
  | other kind => kind

def ofKind (kind : Int) : Value :=
  match kind with
  | 0 => null
  | 1 => bool false
  | 2 => int 0
  | 3 => float (.zero false)
  | 4 => string []
  | 5 => array []
  | 6 => object []
  | kind => other kind

def get? (key : Bytes) : Value → Option Value
  | object members => (members.reverse.find? fun member => member.1 = key).map Prod.snd
  | _ => none

end Value

/-- A value without the order and the repetition of keys. -/
inductive Plain where
  | null
  | bool (b : Bool)
  | int (i : Int)
  | float (f : Binary64)
  | string (s : Bytes)
  | list (elements : List Plain)
  | map (entries : List (Bytes × Plain))

/-- Puts an entry into a list of entries in the order of their keys, in place of one with the same
key. -/
def insertEntry {α : Type} (key : Bytes) (value : α) : List (Bytes × α) → List (Bytes × α)
  | [] => [(key, value)]
  | (k, v) :: rest =>
    if key = k then (key, value) :: rest
    else if Bytes.lt key k then (key, value) :: (k, v) :: rest
    else (k, v) :: insertEntry key value rest

def Plain.get? (key : Bytes) : Plain → Option Plain
  | map entries => entries.lookup key
  | _ => none

namespace Value

mutual

/-- The plain form of a value: of members with one key the last counts. -/
def plain : Value → Plain
  | null => .null
  | bool b => .bool b
  | int i => .int i
  | float f => .float f
  | string s => .string s
  | array elements => .list (plainElements elements)
  | object members => .map (plainMembers members [])
  | other _ => .null

def plainElements : List Value → List Plain
  | [] => []
  | v :: vs => v.plain :: plainElements vs

/-- Enters the plain forms of some members, in order, into a list of entries. -/
def plainMembers : List (Bytes × Value) → List (Bytes × Plain) → List (Bytes × Plain)
  | [], entries => entries
  | (key, v) :: members, entries => plainMembers members (insertEntry key v.plain entries)

end

end Value

end Backtrack.Json
