import Backtrack.Json.Yaml
import Backtrack.Proofs.Decimal.General

/-!
# YAML nodes keep JSON values

A value can be read off its node: the tag of a scalar tells the kind, its text what the value
holds, and the content of a mapping falls into pairs of a key and a value, however deep the nodes in
it are. So values with the same node are the same.

This module does NOT treat values of a kind that no text has, whose node is that of null, nor floats
that are no numbers, which have one text in common.
-/

namespace Backtrack.Json.Value

open Yaml (Node Tag)
open Numerals Decimal

/-- A value of the seven kinds whose floats, at any depth, are numbers. -/
inductive Definite : Value → Prop where
  | null : Definite .null
  | bool (b : Bool) : Definite (.bool b)
  | int (i : Int) : Definite (.int i)
  | float {f : Binary64} (h : f.isNaN = false) : Definite (.float f)
  | string (s : Bytes) : Definite (.string s)
  | array {elements : List Value} (h : ∀ v ∈ elements, Definite v) : Definite (.array elements)
  | object {members : List (Bytes × Value)} (h : ∀ m ∈ members, Definite m.2) :
      Definite (.object members)

def ofBool? (t : Bytes) : Option Bool :=
  if t = encodeBool true then some true
  else if t = encodeBool false then some false
  else none

def ofScalar? : Tag → Bytes → Option Value
  | .null, _ => some .null
  | .bool, t => (ofBool? t).map .bool
  | .int, t => (integer? t).map .int
  | .float, t => (ofGeneral? t).map .float
  | .str, t => some (.string t)
  | .timestamp, _ | .binary, _ => none

mutual

def ofYaml? : Node → Option Value
  | .scalar tag t => ofScalar? tag t
  | .sequence content => (ofElements? content).map .array
  | .mapping content => (ofPairs? content).map .object

def ofElements? : List Node → Option (List Value)
  | [] => some []
  | n :: ns => do return (← ofYaml? n) :: (← ofElements? ns)

def ofPairs? : List Node → Option (List (Bytes × Value))
  | [] => some []
  | .scalar .str key :: n :: ns => do return (key, ← ofYaml? n) :: (← ofPairs? ns)
  | _ => none

end

theorem ofBool?_encodeBool (b : Bool) : ofBool? (encodeBool b) = some b := by
  cases b <;> decide

theorem ofElements?_yamlElements {elements : List Value}
    (h : ∀ v ∈ elements, ofYaml? v.toYaml = some v) :
    ofElements? (yamlElements elements) = some elements := by
  induction elements with
  | nil => rfl
  | cons v vs ih =>
    rw [List.forall_mem_cons] at h
    rw [yamlElements, ofElements?, h.1, ih h.2]
    rfl

theorem ofPairs?_yamlMembers {members : List (Bytes × Value)}
    (h : ∀ m ∈ members, ofYaml? m.2.toYaml = some m.2) :
    ofPairs? (yamlMembers members) = some members := by
  induction members with
  | nil => rfl
  | cons m ms ih =>
    rw [List.forall_mem_cons] at h
    rw [yamlMembers, ofPairs?, h.1, ih h.2]
    rfl

theorem Definite.ofYaml?_toYaml {v : Value} (hv : v.Definite) : ofYaml? v.toYaml = some v := by
  induction hv with
  | null => rfl
  | bool b => rw [toYaml, ofYaml?, ofScalar?, ofBool?_encodeBool]; rfl
  | int i => rw [toYaml, ofYaml?, ofScalar?, integer?_ofInt]; rfl
  | float h => rw [toYaml, ofYaml?, ofScalar?, ofGeneral?_text h]; rfl
  | string s => rfl
  | array _ ih => rw [toYaml, ofYaml?, ofElements?_yamlElements ih]; rfl
  | object _ ih => rw [toYaml, ofYaml?, ofPairs?_yamlMembers ih]; rfl

/-- Nothing of a value is lost in its node: it can be read off the node, and no other value has the
same node. -/
theorem toYaml_lossless {v : Value} (hv : v.Definite) :
    ofYaml? v.toYaml = some v ∧ ∀ w : Value, w.Definite → w.toYaml = v.toYaml → w = v := by
  refine ⟨hv.ofYaml?_toYaml, fun w hw heq => Option.some.inj ?_⟩
  calc some w = ofYaml? w.toYaml := hw.ofYaml?_toYaml.symm
    _ = some v := by rw [heq, hv.ofYaml?_toYaml]

/-- An object in which keys occur twice and texts are those of more than one kind. -/
def lookalikes : Value :=
  .object [
    ("1", .array [.int 1, .float ⟨0x3FF0000000000000⟩, .string "1"]),
    ("", .object [("null", .null), ("null", .string "null"), ("true", .bool true)]),
    ("1", .array [.array [], .object [], .float (.zero true), .float (.infinity true)])]

theorem toYaml_lossless_lookalikes : lookalikes.Definite ∧
    ofYaml? lookalikes.toYaml = some lookalikes ∧
    ∀ w : Value, w.Definite → w.toYaml = lookalikes.toYaml → w = lookalikes := by
  have h : lookalikes.Definite := by
    refine .object ?_
    simp only [List.forall_mem_cons, List.not_mem_nil, false_imp_iff, implies_true, and_true]
    refine ⟨.array ?_, .object ?_, .array ?_⟩
    all_goals
      simp only [List.forall_mem_cons, List.not_mem_nil, false_imp_iff, implies_true, and_true]
    · exact ⟨.int 1, .float (by decide), .string _⟩
    · exact ⟨.null, .string _, .bool true⟩
    · exact ⟨.array (by simp), .object (by simp), .float (by decide), .float (by decide)⟩
  exact ⟨h, toYaml_lossless h⟩

end Backtrack.Json.Value
