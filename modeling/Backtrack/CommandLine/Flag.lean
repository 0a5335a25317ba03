import Backtrack.CommandLine.Suggestion
import Backtrack.Decimal.Integer
import Backtrack.Duration
import Backtrack.Text.LowerCase

/-!
# Flags and arguments

What a program accepts on its command line: flags, which are found by their names, and arguments,
which are found by their places.
-/

namespace Backtrack.CommandLine

inductive FlagKind where
  | switch
  | counter
  | text
  | duration
  deriving DecidableEq, Repr

structure Flag where
  name : Bytes
  short : Option Char
  kind : FlagKind

def Flag.long (f : Flag) : Bytes := "--" ++ f.name

def Flag.spellings (f : Flag) : List Bytes :=
  f.long :: (f.short.map fun c => 45 :: Utf8.encode c).toList

inductive FlagValue where
  | switch (on : Bool)
  | counter (count : Int)
  | text (text : Bytes)
  | duration (d : Duration)

structure Argument where
  name : Bytes
  optional : Bool
  /-- Whether it takes as many words as there are. -/
  repeated : Bool
  /-- Whether it names a file that has to exist. -/
  isFile : Bool

def Argument.placeholder (a : Argument) : Bytes := "<" ++ a.name ++ ">"

def Argument.summary (a : Argument) : Bytes :=
  let text : Bytes := if a.repeated then a.placeholder ++ " ..." else a.placeholder
  if a.optional then "[" ++ text ++ "]" else text

inductive Mistake where
  | unknownFlag (spelling : Bytes) (known : List Bytes)
  | unexpectedArgument (word : Bytes) (known : List Bytes)
  | noValue (flag : Flag) (found : Option Bytes)
  | badValue (summary problem : Bytes)
  | notOffered (flag value : Bytes) (offered : List Bytes)
  | missing (what : List Bytes)

def isValue (word : Bytes) : Bool := word.head? ≠ some 45 || word = [45]

def FlagKind.expectation : FlagKind → Bytes
  | switch => "bool"
  | counter => "counter"
  | text => "string"
  | duration => "duration"

def noValueMessage (flag : Flag) (found : Option Bytes) : Bytes :=
  let expected : Bytes := flag.long ++ ": expected " ++ flag.kind.expectation ++ " value but got "
  match found with
  | none => expected ++ "\"EOL\" (<EOL>)"
  | some word =>
    let what : Bytes := if ([45, 45] : Bytes).isPrefixOf word then "long flag" else "short flag"
    expected ++ Text.quoted word ++ " (" ++ what ++ "); perhaps try " ++ flag.long ++ "="
      ++ Text.quoted word ++ "?"

def Mistake.message : Mistake → Bytes
  | unknownFlag spelling known => "unknown flag " ++ spelling ++ suggestion spelling known
  | unexpectedArgument word known => "unexpected argument " ++ word ++ suggestion word known
  | noValue flag found => noValueMessage flag found
  | badValue summary problem => summary ++ ": " ++ problem
  | notOffered flag value offered =>
    flag ++ " must be one of " ++ Bytes.join "," (offered.map Text.quoted) ++ " but got "
      ++ Text.quoted value
  | missing what =>
    let what := what.map Text.quoted
    match what with
    | [one] => "expected " ++ one
    | several => "expected one of " ++ Bytes.join ",  " several

def wellFormed (text : Bytes) : Bytes := Utf8.ofChars (Utf8.chars text)

def switchWords : List (Bytes × Bool) :=
  [("true", true), ("1", true), ("yes", true), ("false", false), ("0", false), ("no", false)]

def FlagKind.decode (kind : FlagKind) (text : Bytes) : Except Bytes FlagValue :=
  match kind with
  | .switch =>
    match switchWords.lookup (Text.lowerCase text) with
    | some on => .ok (.switch on)
    | none =>
      .error ("bool value must be true, 1, yes, false, 0 or no but got "
        ++ Text.quoted (Text.lowerCase text))
  | .counter =>
    match Decimal.readInt text with
    | .ok n => .ok (.counter n)
    | .error _ => .error ("expected a counter but got " ++ Text.quoted text ++ " (string)")
  | .text => .ok (.text (wellFormed text))
  | .duration =>
    match Duration.read text with
    | .ok d => .ok (.duration d)
    | .error defect =>
      .error ("expected duration but got " ++ Text.quoted text ++ ": " ++ defect.message text)

/-- The values that were given to flags, by their names, in the order in which they were first
given. -/
abbrev FlagValues := List (Bytes × FlagValue)

def FlagValues.set (name : Bytes) (value : FlagValue) : FlagValues → FlagValues
  | [] => [(name, value)]
  | entry :: entries =>
    if entry.1 = name then (name, value) :: entries
    else entry :: FlagValues.set name value entries

def FlagValues.firstOf (values : FlagValues) (names : List Bytes) : Option Bytes :=
  (values.map Prod.fst).find? names.contains

def FlagValues.isGiven (values : FlagValues) (name : Bytes) : Bool := (values.lookup name).isSome

def FlagValues.isOn (values : FlagValues) (name : Bytes) : Bool :=
  match values.lookup name with
  | some (.switch on) => on
  | _ => false

def FlagValues.count (values : FlagValues) (name : Bytes) : Int :=
  match values.lookup name with
  | some (.counter n) => n
  | _ => 0

def FlagValues.textOr (values : FlagValues) (name default : Bytes) : Bytes :=
  match values.lookup name with
  | some (.text t) => t
  | _ => default

def FlagValues.durationOf (values : FlagValues) (name : Bytes) : Duration :=
  match values.lookup name with
  | some (.duration d) => d
  | _ => .zero

end Backtrack.CommandLine
