import Backtrack.Decimal.Format
import Backtrack.Json.Printer
import Backtrack.Yaml.Node

/-!
# YAML nodes of JSON values
-/

namespace Backtrack.Json.Value

open Yaml (Node)

mutual

def toYaml : Value → Node
  | null | other _ => .scalar .null "null"
  | bool b => .scalar .bool (encodeBool b)
  | int i => .scalar .int (Bytes.ofInt i)
  | float f => .scalar .float (Decimal.general.text f)
  | string s => .scalar .str s
  | array elements => .sequence (yamlElements elements)
  | object members => .mapping (yamlMembers members)

def yamlElements : List Value → List Node
  | [] => []
  | v :: vs => v.toYaml :: yamlElements vs

def yamlMembers : List (Bytes × Value) → List Node
  | [] => []
  | (key, v) :: members => .scalar .str key :: v.toYaml :: yamlMembers members

end

end Backtrack.Json.Value
