import Backtrack.Json.Value
import Backtrack.Decimal.Format
import Backtrack.Text.Quoted
import Backtrack.Xml.Node

/-!
# Composite literals

A value written as the expression that builds it, one field or element to a line. Fields that hold
nothing are left out.
-/

namespace Backtrack

inductive Literal where
  | atom (text : Bytes)
  | fields (type : Bytes) (fields : List (Bytes × Literal))
  | elements (type : Bytes) (elements : List Literal)

namespace Literal

mutual

/-- A literal whose lines after the first are indented. -/
def write (indent : Bytes) : Literal → Bytes
  | atom text => text
  | fields type parts => type ++ "\x7b\n" ++ writeFields (indent ++ "  ") parts ++ indent ++ "\x7d"
  | elements type parts =>
    type ++ "\x7b\n" ++ writeElements (indent ++ "  ") parts ++ indent ++ "\x7d"

def writeFields (indent : Bytes) : List (Bytes × Literal) → Bytes
  | [] => []
  | (name, value) :: rest =>
    indent ++ name ++ ": " ++ value.write indent ++ ",\n" ++ writeFields indent rest

def writeElements (indent : Bytes) : List Literal → Bytes
  | [] => []
  | value :: rest => indent ++ value.write indent ++ ",\n" ++ writeElements indent rest

end

def text (l : Literal) : Bytes := l.write [] ++ "\n"

def ofText (text : Bytes) : Literal := atom (Text.quoted text)

def ofFloat (x : Binary64) : Literal := atom (Decimal.general.text x)

def fieldIf (condition : Bool) (name : Bytes) (value : Literal) : List (Bytes × Literal) :=
  if condition then [(name, value)] else []

def textField (name text : Bytes) : List (Bytes × Literal) :=
  fieldIf (!text.isEmpty) name (ofText text)

end Literal

namespace Json.Value

/-- The field that tells the kind of a value; nothing is said of null. -/
def kindField (v : Value) : List (Bytes × Literal) :=
  let text : Bytes := "json.Kind(" ++ kindName v.kind ++ ")"
  Literal.fieldIf (v.kind ≠ 0) "Kind" (.atom text)

def listField (name type : Bytes) (elements : List Literal) : List (Bytes × Literal) :=
  Literal.fieldIf (!elements.isEmpty) name (.elements type elements)

mutual

def literal (type : Bytes) : Value → Literal
  | null => .fields type (kindField null)
  | bool b => .fields type (kindField (bool b) ++ Literal.fieldIf b "Bool" (.atom "true"))
  | int i =>
    .fields type (kindField (int i) ++ Literal.fieldIf (i ≠ 0) "Int" (.atom (Bytes.ofInt i)))
  | float f =>
    .fields type (kindField (float f) ++ Literal.fieldIf (!f.isZero) "Float" (.ofFloat f))
  | string s => .fields type (kindField (string s) ++ Literal.textField "Str" s)
  | array vs =>
    .fields type (kindField (array vs) ++ listField "Array" "[]*json.Value" (literalElements vs))
  | object ms =>
    .fields type (kindField (object ms) ++ listField "Members" "[]json.Member" (literalMembers ms))
  | other kind => .fields type (kindField (other kind))

def literalElements : List Value → List Literal
  | [] => []
  | v :: vs => v.literal [] :: literalElements vs

def literalMembers : List (Bytes × Value) → List Literal
  | [] => []
  | (key, v) :: ms =>
    .fields []
      (Literal.textField "Key" key ++ Literal.fieldIf true "Value" (v.literal "&json.Value"))
      :: literalMembers ms

end

def toLiteral (v : Value) : Literal := v.literal "&json.Value"

end Json.Value

namespace Xml

def attributeLiteral (attr : Bytes × Bytes) : Literal :=
  .fields [] (Literal.textField "Name" attr.1 ++ Literal.textField "Value" attr.2)

mutual

def Node.toLiteral : Node → Literal
  | .element name attributes children =>
    .fields "&xml.Element"
      (Literal.textField "Name" name
        ++ Literal.fieldIf (!attributes.isEmpty) "Attrs"
          (.elements "[]xml.Attr" (attributes.map attributeLiteral))
        ++ Literal.fieldIf (!children.isEmpty) "Children"
          (.elements "[]xml.Node" (nodeLiterals children)))
  | .text t =>
    let text : Bytes := "xml.Text(" ++ Text.quoted t ++ ")"
    .atom text

def nodeLiterals : List Node → List Literal
  | [] => []
  | n :: ns => n.toLiteral :: nodeLiterals ns

end

end Xml

end Backtrack
