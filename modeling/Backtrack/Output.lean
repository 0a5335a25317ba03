import Backtrack.Json.Yaml
import Backtrack.Literal
import Backtrack.Yaml.Layout

/-!
# Output

What an evaluation gives is printed as a composite literal, as JSON or as YAML. An XML document may
also be printed as XML, whatever the format.
-/

namespace Backtrack

inductive Format where
  | literal | json | yaml
  deriving DecidableEq, Repr

def Format.names : List (Bytes × Format) := [("repr", .literal), ("json", .json), ("yaml", .yaml)]

inductive Output where
  | json (value : Json.Value)
  | xml (root : Xml.Element)
  | number (value : Float)
  | text (text : Bytes)
  | raw (text : Bytes)

namespace Xml

mutual

def Node.toJson : Node → Json.Value
  | .element name attributes children =>
    let pair (a : Bytes × Bytes) : Json.Value :=
      .object [("Name", .string a.1), ("Value", .string a.2)]
    .object [("Name", .string name), ("Attrs", .array (attributes.map pair)),
      ("Children", .array (nodesToJson children))]
  | .text t => .string t

def nodesToJson : List Node → List Json.Value
  | [] => []
  | n :: ns => n.toJson :: nodesToJson ns

end

open Yaml (Layout)

def namedLayouts (entries : List (Bytes × Layout)) : Layout :=
  .mapping (entries.map fun (name, layout) => (Layout.ofText name, layout))

mutual

def Node.layout : Node → Layout
  | .element name attributes children =>
    let pair (a : Bytes × Bytes) : Layout :=
      namedLayouts [("name", Layout.ofText a.1), ("value", Layout.ofText a.2)]
    namedLayouts [("name", Layout.ofText name), ("attrs", .sequence (attributes.map pair)),
      ("children", .sequence (nodeLayouts children))]
  | .text t => Layout.ofText t

def nodeLayouts : List Node → List Layout
  | [] => []
  | n :: ns => n.layout :: nodeLayouts ns

end

end Xml

def yamlNumber (x : Binary64) : Bytes :=
  if x.isNaN then ".nan"
  else if x.isInfinite then (if x.negative then "-.inf" else ".inf")
  else Decimal.general.text x

namespace Output

def writeJson (v : Json.Value) : Except Bytes Bytes :=
  match v.pretty [] with
  | .ok written => .ok (written ++ "\n")
  | .error u => .error u.message

def write (format : Format) : Output → Except Bytes Bytes
  | raw t => .ok t
  | json v =>
    match format with
    | .literal => .ok v.toLiteral.text
    | .json => writeJson v
    | .yaml =>
      match v.toYaml.layout with
      | .ok layout => .ok layout.document
      | .error m => .error m.message
  | xml root =>
    match format with
    | .literal => .ok root.toNode.toLiteral.text
    | .json => writeJson root.toNode.toJson
    | .yaml => .ok root.toNode.layout.document
  | number x =>
    let x := Binary64.ofFloat x
    match format with
    | .literal => .ok (Literal.ofFloat x).text
    | .json => writeJson (.float x)
    | .yaml => .ok (Yaml.Layout.scalar none .plain (yamlNumber x)).document
  | text t =>
    match format with
    | .literal => .ok (Literal.ofText t).text
    | .json => writeJson (.string t)
    | .yaml => .ok (Yaml.Layout.ofText t).document

end Output

end Backtrack
