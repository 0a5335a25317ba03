import Backtrack.Toml.Form

/-!
# TOML documents under construction

Statements are carried out one after another. A key is given once. There are two exceptions: a table
that only came about on the way to another one may still be given, and an array may be replaced by
anything. For both it is remembered by its path what a key holds.
-/

namespace Backtrack.Toml

abbrev Entries := List (Bytes × Value)

namespace Entries

def set (key : Bytes) (v : Value) : Entries → Entries
  | [] => [(key, v)]
  | (k, w) :: rest => if k = key then (key, v) :: rest else (k, w) :: set key v rest

/-- The table at a path; where there are several tables, the latest is meant. -/
def at? : Path → Entries → Option Entries
  | [], entries => some entries
  | key :: path, entries =>
    match entries.lookup key with
    | some (.table inner) => at? path inner
    | some (.tables elements) => elements.getLast?.bind (at? path)
    | _ => none

def changeAt (change : Entries → Entries) : Path → Entries → Option Entries
  | [], entries => some (change entries)
  | key :: path, entries =>
    match entries.lookup key with
    | some (.table inner) => do return entries.set key (.table (← changeAt change path inner))
    | some (.tables elements) => do
      let latest ← changeAt change path (← elements.getLast?)
      return entries.set key (.tables (elements.dropLast ++ [latest]))
    | _ => none

/-- Gives a value to a dotted key, in place of one that is there. Tables on the way are created. -/
def assign (last : Bytes) (v : Value) : (way : Path) → Entries → Option Entries
  | [], entries => some (entries.set last v)
  | key :: way, entries =>
    match entries.lookup key with
    | none => do return entries.set key (.table (← assign last v way []))
    | some (.table inner) => do return entries.set key (.table (← assign last v way inner))
    | some _ => none

end Entries

structure Document where
  root : Entries := []
  /-- The paths of tables that may still be given. -/
  implied : List Path := []
  /-- The paths at which the latest value was an array. -/
  arrays : List Path := []

namespace Document

/-- Marks a table as one that may still be given. -/
def imply (path : Path) (d : Document) : Document :=
  if d.implied.contains path then d else { d with implied := path :: d.implied }

/-- Removes the mark of a table that has been given. -/
def settle (path : Path) (d : Document) : Document :=
  { d with implied := d.implied.filter (· ≠ path) }

/-- Remembers whether a key of a table holds an array. A key without a name stands for its table,
unless that is the outermost one. -/
def note (table : Path) (key : Bytes) (isArray : Bool) (d : Document) : Document :=
  let path := if key.isEmpty && !table.isEmpty then table else table ++ [key]
  let others := d.arrays.filter (· ≠ path)
  { d with arrays := if isArray then path :: others else others }

def place (table : Path) (key : Bytes) (v : Value) (d : Document) : Option Document := do
  return { d with root := ← d.root.changeAt (Entries.set key v) table }

/-- Gives a value to a key of a table. An array is replaced; a table that may still be given stays
as it is; anything else must not be given again. -/
def define (table : Path) (key : Bytes) (v : Value) (d : Document) : Option Document := do
  let path := table ++ [key]
  if ((← d.root.at? table).lookup key).isNone then d.place table key v
  else if d.arrays.contains path then (d.settle path).place table key v
  else if d.implied.contains path then some (d.settle path)
  else none

def pave (table : Path) : (way : Path) → Document → Option Document
  | [], d => some d
  | key :: way, d => do
    let path := table ++ [key]
    match (← d.root.at? table).lookup key with
    | none => pave path way (← (d.imply path).place table key (.table []))
    | some (.table _) | some (.tables _) => pave path way d
    | some _ => none

def openTable (key : Key) (d : Document) : Option Document := do
  (← d.pave [] key.way).define key.way key.last (.table [])

def openElement (key : Key) (d : Document) : Option Document := do
  let d ← d.pave [] key.way
  match (← d.root.at? key.way).lookup key.last with
  | none => d.place key.way key.last (.tables [[]])
  | some (.tables elements) => d.place key.way key.last (.tables (elements ++ [[]]))
  | some _ => none

def follow (table : Path) : (way : Path) → Document → Option Document
  | [], d => some d
  | name :: way, d => do
    let path := table ++ [name]
    follow path way (← (d.imply path).openTable ⟨table, name⟩)

mutual

/-- The value of a form that is assigned to a key of a table, and the document in which its own
tables have been opened. -/
def evaluate (table : Path) (key : Bytes) (inArray : Bool) :
    Form → Document → Option (Value × Document)
  | .scalar v, d => some (v, d)
  | .array elements, d => do
    let (values, d) ← evaluateAll table key elements (d.note table key true)
    return (.array values, d)
  | .table pairs, d => do
    let path := table ++ [key]
    let d := d.imply path
    let d ← if inArray then d.openElement ⟨table, key⟩ else d.openTable ⟨table, key⟩
    let (entries, d) ← evaluatePairs path [] pairs d
    return (.table entries, d)

def evaluateAll (table : Path) (key : Bytes) : List Form → Document → Option (List Value × Document)
  | [], d => some ([], d)
  | form :: forms, d => do
    let (v, d) ← evaluate table key true form d
    let (vs, d) ← evaluateAll table key forms d
    return (v :: vs, d)

/-- The entries of a table that is written on one line, behind those it has already. -/
def evaluatePairs (table : Path) (entries : Entries) :
    List (Key × Form) → Document → Option (Entries × Document)
  | [], d => some (entries, d)
  | (key, form) :: pairs, d => do
    let inner := table ++ key.way
    let (v, d) ← evaluate inner key.last false form (← d.follow table key.way)
    let d := (← d.define inner key.last v).note inner key.last form.isArray
    evaluatePairs table (← entries.assign key.last v key.way) pairs d

end

/-- Carries out a statement in the table that is open: the table that is open then, and the
document. -/
def perform (table : Path) (d : Document) : Statement → Option (Path × Document)
  | .assign key form => do
    let inner := table ++ key.way
    let (v, d) ← evaluate inner key.last false form (← d.follow table key.way)
    let d ← d.define inner key.last v
    return (table, d.note inner key.last form.isArray)
  | .header key => do return (key.path, (← d.openTable key).note key.path [] false)
  | .element key => do return (key.path, (← d.openElement key).note key.path [] false)

def performAll (statements : List Statement) : Option Document := do
  let (_, d) ← statements.foldlM (fun (table, d) statement => perform table d statement) ([], {})
  return d

end Document

end Backtrack.Toml
