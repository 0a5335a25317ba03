import Backtrack.Text.Utf8

/-!
# XML trees

A practical subset of XML: elements with attributes, and text. Comments and declarations leave no
trace in the tree, and entities are not decoded.
-/

namespace Backtrack.Xml

inductive Node where
  | element (name : Bytes) (attributes : List (Bytes × Bytes)) (children : List Node)
  | text (text : Bytes)

structure Element where
  name : Bytes
  attributes : List (Bytes × Bytes)
  children : List Node

def Element.toNode (e : Element) : Node := .element e.name e.attributes e.children

def Element.attribute? (e : Element) (name : Bytes) : Option Bytes := e.attributes.lookup name

/-- An attribute with its value in double quotes, or in single quotes if there are double quotes in
it. -/
def printAttribute (attr : Bytes × Bytes) : Bytes :=
  let quote : Bytes := if attr.2.contains (Bytes.ascii '\x22') then "'" else "\""
  " " ++ attr.1 ++ "=" ++ quote ++ attr.2 ++ quote

namespace Node

mutual

/-- A node with one tag or text to a line, behind the given indentation and in front of the given
text. An element without children is one tag. -/
def printBefore (indent : Bytes) : Node → (after : Bytes) → Bytes
  | element name attributes children, after =>
    let opening : Bytes := indent ++ "<" ++ name ++ attributes.flatMap printAttribute
    match children with
    | [] => opening ++ ("/>\n" ++ after)
    | child :: rest =>
      let closing : Bytes := indent ++ "</" ++ name ++ ">\n"
      let inside : Bytes := indent ++ "\t"
      opening ++ (">\n" ++ child.printBefore inside (printAllBefore inside rest (closing ++ after)))
  | text t, after => indent ++ (t ++ ("\n" ++ after))

/-- Some nodes one after another, in front of the given text. -/
def printAllBefore (indent : Bytes) : List Node → (after : Bytes) → Bytes
  | [], after => after
  | n :: ns, after => n.printBefore indent (printAllBefore indent ns after)

end

/-- A node with one tag or text to a line, behind the given indentation. -/
def print (indent : Bytes) (n : Node) : Bytes := n.printBefore indent []

end Node

end Backtrack.Xml
