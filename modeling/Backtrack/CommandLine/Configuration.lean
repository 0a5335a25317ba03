import Backtrack.CommandLine.Reader
import Backtrack.Toml.Reader
import Backtrack.Toml.Wording

/-!
# Configuration

Flags that are not given on the command line may be given in a configuration. Keys are names of
flags, and a table named after a command overrides the top level for that command.
-/

namespace Backtrack.CommandLine

def lowLines (name : Bytes) : Bytes := name.map fun b => if b = 45 then 95 else b

/-- The entry under a name, or under the name with low lines for hyphens. Tables do not count. -/
def lookup {α : Type} (isTable : α → Bool) (entries : List (Bytes × α)) (name : Bytes) : Option α :=
  let find (key : Bytes) : Option α := (entries.lookup key).filter fun v => !isTable v
  (find name).orElse fun _ => find (lowLines name)

abbrev Configuration := List (Bytes × Toml.Value)

def Configuration.table (c : Configuration) (command : Bytes) : Configuration :=
  match List.lookup command c with
  | some (.table entries) => entries
  | _ => []

def Configuration.find? (c : Configuration) (command : Option Bytes) (flag : Bytes) :
    Option Toml.Value :=
  let own : Configuration := (command.map c.table).getD []
  (lookup Toml.Value.isTable own flag).orElse fun _ => lookup Toml.Value.isTable c flag

/-- Why a value of a configuration cannot be given to a flag. -/
inductive Unfit where
  | meaningless (problem : Bytes)
  | breakdown (message : Bytes)

def notText (v : Toml.Value) : Bytes :=
  let what : Bytes :=
    match v with
    | .integer _ | .float _ => "number"
    | .boolean _ => "bool"
    | _ => "array"
  match v.notFinite? with
  | some f => "json: unsupported value: " ++ Decimal.general.text f
  | none =>
    v.literalText ++ " -> *string: json: cannot unmarshal " ++ what
      ++ " into Go value of type string"

/-- The number of nanoseconds that a fraction stands for. One that is too large gives the least
number there is. -/
def nanosecondsOf (f : Binary64) : Int :=
  match f.truncate? with
  | some i => if Decimal.minInt ≤ i ∧ i ≤ Decimal.maxInt then i else Decimal.minInt
  | none => Decimal.minInt

/-- The value of a flag in a configuration. A number is a duration in nanoseconds. Counts are given
as texts, because integers are wider than the place where a count is stored. -/
def FlagKind.ofConfiguration (kind : FlagKind) (v : Toml.Value) : Except Unfit FlagValue :=
  match kind, v with
  | kind, .string t =>
    match kind.decode t with
    | .ok value => .ok value
    | .error problem => .error (.meaningless problem)
  | .switch, .boolean b => .ok (.switch b)
  | .switch, v =>
    .error (.meaningless ("expected bool but got " ++ v.quotedText ++ " (" ++ v.typeName ++ ")"))
  | .counter, .integer _ =>
    .error (.breakdown "reflect.Set: value of type int64 is not assignable to type int")
  | .counter, v =>
    .error (.meaningless
      ("expected a counter but got " ++ Text.quoted v.plainText ++ " (" ++ v.typeName ++ ")"))
  | .text, .time m => .ok (.text m.text)
  | .text, v => .error (.meaningless (notText v))
  | .duration, .integer i => .ok (.duration ⟨i⟩)
  | .duration, .float f => .ok (.duration ⟨nanosecondsOf f⟩)
  | .duration, v => .error (.meaningless ("expected duration but got " ++ v.quotedText))

inductive Obstacle where
  | mistake (m : Mistake)
  | breakdown (message : Bytes)

def Reading.configureFlag (c : Configuration) (r : Reading) (flag : Flag) :
    Except Obstacle Reading :=
  if r.values.isGiven flag.name then .ok r
  else
    match c.find? (r.command.map Command.name) flag.name with
    | none => .ok r
    | some v =>
      match flag.kind.ofConfiguration v with
      | .ok value => .ok { r with values := r.values.set flag.name value }
      | .error (.meaningless problem) => .error (.mistake (.badValue flag.long problem))
      | .error (.breakdown message) => .error (.breakdown message)

def Reading.configure (program : Program) (c : Configuration) (r : Reading) :
    Except Obstacle Reading :=
  (r.flags program).foldlM (Reading.configureFlag c) r

end Backtrack.CommandLine
