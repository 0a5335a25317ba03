import Backtrack.Json.Value

/-!
# Syntax trees of grammar texts

A tree keeps the shape in which a grammar was written, down to single alternatives and single terms,
but no positions. It is printed as JSON: a field is left out where there is nothing to say.
-/

namespace Backtrack.Ebnf.Tree

/-- A term of an alternative. What stands in brackets is a list of alternatives. -/
inductive Factor where
  | name (name : Bytes)
  /-- A text, or a range from one text to another. -/
  | literal (first : Bytes) (last : Option Bytes)
  | group (body : List (List Factor))
  | option (body : List (List Factor))
  | repetition (body : List (List Factor))

abbrev Sequence := List Factor

abbrev Alternatives := List Sequence

structure Production where
  name : Bytes
  body : List Alternatives

abbrev Document := List Production

open Json (Value)

def object (fields : List (Option (Bytes × Value))) : Value := .object (fields.filterMap id)

def textField (key text : Bytes) : Option (Bytes × Value) :=
  if text.isEmpty then none else some (key, .string text)

def listField (key : Bytes) (values : List Value) : Option (Bytes × Value) :=
  if values.isEmpty then none else some (key, .array values)

def field (key : Bytes) (value : Value) : Option (Bytes × Value) := some (key, value)

def bracketed (kind : Bytes) (body : List Value) : Value :=
  object [field kind (object [field "Expression" (object [listField "Alternatives" body])])]

mutual

def Factor.toJson : Factor → Value
  | .name name => object [textField "Name" name]
  | .literal first last =>
    let ending : Option (Bytes × Value) := last.map fun t => ("End", .string t)
    object [field "Literal" (object [textField "Start" first, ending])]
  | .group body => bracketed "Group" (alternativesToJson body)
  | .option body => bracketed "Option" (alternativesToJson body)
  | .repetition body => bracketed "Repetition" (alternativesToJson body)

def alternativesToJson : List (List Factor) → List Value
  | [] => []
  | terms :: rest => object [listField "Terms" (termsToJson terms)] :: alternativesToJson rest

def termsToJson : List Factor → List Value
  | [] => []
  | term :: rest => term.toJson :: termsToJson rest

end

def Production.toJson (p : Production) : Value :=
  let expression (e : Alternatives) : Value :=
    object [listField "Alternatives" (alternativesToJson e)]
  object [textField "Name" p.name, listField "Expression" (p.body.map expression)]

def Document.toJson (d : Document) : Value :=
  object [listField "Productions" (d.map Production.toJson)]

end Backtrack.Ebnf.Tree
