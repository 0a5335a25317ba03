import Backtrack.Text.Quoted

/-!
# Files

The files of a directory, as far as a command reads them: names and contents. Names are paths
relative to the directory.
-/

namespace Backtrack

abbrev Files := List (Bytes × Bytes)

namespace Files

/-- One step up from a path, whose parts are listed from the last to the first. -/
def up : List Bytes → List Bytes
  | [] => [".."]
  | part :: parts => if part = Bytes.ofString ".." then ".." :: part :: parts else parts

/-- The parts of a path one after another, each step up cancelling the part before it. -/
def simplify : (before : List Bytes) → List Bytes → List Bytes
  | before, [] => before.reverse
  | before, part :: parts =>
    if part.isEmpty || part = Bytes.ofString "." then simplify before parts
    else if part = Bytes.ofString ".." then simplify (up before) parts
    else simplify (part :: before) parts

def clean (path : Bytes) : Bytes :=
  if path.head? = some 47 then path else Bytes.join "/" (simplify [] (Bytes.splitOn 47 path))

inductive Entry where
  | file (content : Bytes)
  | directory

inductive Absence where
  | missing
  | throughFile
  | invalid
  | tooLong

def Absence.message : Absence → Bytes
  | missing => "no such file or directory"
  | throughFile => "not a directory"
  | invalid => "invalid argument"
  | tooLong => "file name too long"

def longestPart : Nat := 255

def longestPath : Nat := 4095

def content? (files : Files) (name : Bytes) : Option Bytes := files.lookup name

def isDirectory (files : Files) (path : Bytes) : Bool :=
  files.any fun (name, _) => (path ++ [47]).isPrefixOf name

/-- Follows the parts of a path from a directory, whose own parts are listed from the last to the
first. -/
def follow (files : Files) : (here : List Bytes) → List Bytes → Except Absence Entry
  | _, [] => .ok .directory
  | here, part :: parts =>
    if part.isEmpty || part = Bytes.ofString "." then follow files here parts
    else if part = Bytes.ofString ".." then follow files (up here) parts
    else if longestPart < part.length then .error .tooLong
    else
      let path := Bytes.join "/" (part :: here).reverse
      match files.content? path with
      | some content => if parts.isEmpty then .ok (.file content) else .error .throughFile
      | none =>
        if files.isDirectory path then follow files (part :: here) parts else .error .missing

def find (files : Files) (path : Bytes) : Except Absence Entry :=
  if path.contains 0 then .error .invalid
  else if path.isEmpty then .error .missing
  else if longestPath < path.length then .error .tooLong
  else if path.head? = some 47 then
    match files.content? path with
    | some content => .ok (.file content)
    | none => .error .missing
  else follow files [] (Bytes.splitOn 47 path)

def directoryMessage (name : Bytes) : Bytes := "read " ++ name ++ ": is a directory"

def openMessage (name : Bytes) (why : Absence) : Bytes := "open " ++ name ++ ": " ++ why.message

def read (files : Files) (name : Bytes) : Except Bytes Bytes :=
  match files.find name with
  | .ok (.file content) => .ok content
  | .ok .directory => .error (directoryMessage name)
  | .error why => .error (openMessage name why)

/-- The simplified name of a file that has to exist. A single hyphen stands for itself. -/
def existing (files : Files) (path : Bytes) : Except Bytes Bytes :=
  if path = Bytes.ofString "-" then .ok path
  else
    let name := clean path
    match if name.isEmpty then .ok .directory else files.find name with
    | .ok (.file _) => .ok name
    | .ok .directory => .error (Text.quoted name ++ " exists but is a directory")
    | .error why => .error ("stat " ++ name ++ ": " ++ why.message)

end Files

end Backtrack
