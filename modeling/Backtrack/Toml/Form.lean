import Backtrack.Toml.Value

/-!
# TOML documents as they are written

A document is a list of statements: assignments and headers. What an assignment gives is a form,
which becomes a value only in its document, since dotted keys may add to tables that are there
already.
-/

namespace Backtrack.Toml

abbrev Path := List Bytes

structure Key where
  way : Path
  last : Bytes

def Key.path (k : Key) : Path := k.way ++ [k.last]

inductive Form where
  | scalar (v : Value)
  | array (elements : List Form)
  | table (pairs : List (Key × Form))

def Form.isArray : Form → Bool
  | .array _ => true
  | _ => false

inductive Statement where
  | assign (key : Key) (form : Form)
  | header (key : Key)
  | element (key : Key)

end Backtrack.Toml
