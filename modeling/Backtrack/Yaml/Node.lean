import Backtrack.Text.Bytes

/-!
# YAML nodes

A node is a scalar with a tag that tells how its text is meant, a sequence, or a mapping.
-/

namespace Backtrack.Yaml

inductive Tag where
  | null | bool | int | float | str | timestamp | binary
  deriving DecidableEq, Repr

def Tag.text : Tag → Bytes
  | null => "!!null"
  | bool => "!!bool"
  | int => "!!int"
  | float => "!!float"
  | str => "!!str"
  | timestamp => "!!timestamp"
  | binary => "!!binary"

inductive Node where
  | scalar (tag : Tag) (value : Bytes)
  | sequence (content : List Node)
  | mapping (content : List Node)

end Backtrack.Yaml
