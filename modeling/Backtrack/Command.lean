import Backtrack.Calc
import Backtrack.CommandLine.Configuration
import Backtrack.Deadline
import Backtrack.Ebnf.Compile
import Backtrack.Json.Grammar
import Backtrack.Output
import Backtrack.Text.Trim
import Backtrack.Xml.Grammar

/-!
# The commands

Documents are evaluated with one of the bundled grammars, or with one that is given as a text, and
what comes out is printed. Documents come from files, or from the standard input if none are named.
-/

namespace Backtrack.Command

open CommandLine

def flags : List Flag := [
  ⟨"help", some 'h', .switch⟩,
  ⟨"verbose", some 'v', .counter⟩,
  ⟨"format", some 'f', .text⟩,
  ⟨"trace", none, .switch⟩,
  ⟨"timeout", none, .duration⟩,
  ⟨"watch", some 'w', .switch⟩,
  ⟨"version", none, .switch⟩]

def filesArgument : Argument := ⟨"files", true, true, true⟩

def program : Program where
  flags := flags
  commands := [
    ⟨"json", [], [filesArgument]⟩,
    ⟨"xml", [⟨"pretty", none, .switch⟩], [filesArgument]⟩,
    ⟨"calc", [], [⟨"expressions", true, true, false⟩]⟩,
    ⟨"ebnf", [], [⟨"grammar", false, false, true⟩, ⟨"start", false, false, false⟩, filesArgument]⟩]

inductive Task where
  | json (files : List Bytes)
  | xml (pretty : Bool) (files : List Bytes)
  | calc (expressions : List Bytes)
  | ebnf (grammar start : Bytes) (files : List Bytes)

structure Options where
  verbose : Int
  formatName : Bytes
  format : Format
  trace : Bool
  /-- How long an evaluation may take; there is no limit unless it is positive. -/
  timeout : Duration
  watch : Bool

structure Invocation where
  path : Bytes
  options : Options
  task : Task

inductive Request where
  | help
  | version
  | run (invocation : Invocation)

def versionName : Bytes := "dev"

def taskOf (r : Reading) (command : CommandLine.Command) : Task :=
  let files := r.argument "files"
  let single (name : Bytes) : Bytes := (r.argument name).flatten
  if command.name = Bytes.ofString "json" then .json files
  else if command.name = Bytes.ofString "xml" then .xml (r.values.isOn "pretty") files
  else if command.name = Bytes.ofString "calc" then .calc (r.argument "expressions")
  else .ebnf (single "grammar") (single "start") files

def optionsOf (values : FlagValues) : Except Mistake Options :=
  let name := values.textOr "format" "repr"
  match Format.names.lookup name with
  | none => .error (.notOffered "--format" name (Format.names.map Prod.fst))
  | some format =>
    .ok {
      verbose := values.count "verbose"
      formatName := name
      format := format
      trace := values.isOn "trace"
      timeout := values.durationOf "timeout"
      watch := values.isOn "watch" }

def requestOf (r : Reading) : Except Mistake Request := do
  let options ← optionsOf r.values
  match r.command, r.missing program with
  | some command, [] => return .run ⟨r.path, options, taskOf r command⟩
  | _, missing => .error (.missing missing)

def selfFlags : List (Bytes × Request) := [("help", .help), ("version", .version)]

/-- Reads a command line. Flags that it does not give are taken from a configuration. What it asks
about the program itself is answered instead of anything else. -/
def readRequest (files : Files) (configuration : Configuration) (words : List Bytes) :
    Except Obstacle Request := do
  let r ← (program.read files words).mapError .mistake
  match (r.values.firstOf (selfFlags.map Prod.fst)).bind (List.lookup · selfFlags) with
  | some request => return request
  | none =>
    let r ← r.configure program configuration
    (requestOf r).mapError .mistake

structure Transcript where
  output : Bytes := []
  trace : Bytes := []
  failure : Option Bytes := none

def Transcript.andThen (t : Transcript) (next : Unit → Transcript) : Transcript :=
  match t.failure with
  | some _ => t
  | none =>
    let u := next ()
    { output := t.output ++ u.output, trace := t.trace ++ u.trace, failure := u.failure }

abbrev Evaluator := Bytes → List Setting → Evaluation Output

def mapValue {α : Type} (f : α → Output) (e : Evaluation α) : Evaluation Output :=
  { result := e.result.map fun r => r.map f, trace := e.trace }

/-- Why a run without an outcome was given up. -/
def haltMessage : Halt → Bytes
  | .fault f => f.message?.getD "the grammar broke down"
  | .outOfFuel => "the grammar does not terminate"

def evaluateAndPrint (o : Options) (evaluate : Evaluator) (name text : Bytes) : Transcript :=
  let settings : List Setting := .filename name :: (if o.trace then [.trace] else [])
  let evaluation := (Work.within o.timeout name (some (evaluate text settings))).getD
    { result := .error .outOfFuel }
  match evaluation.result with
  | .error why => { trace := evaluation.trace, failure := some (haltMessage why) }
  | .ok (.error error) => { trace := evaluation.trace, failure := some error.text }
  | .ok (.ok value) =>
    match value.write o.format with
    | .ok written => { output := written, trace := evaluation.trace }
    | .error problem => { trace := evaluation.trace, failure := some problem }

def evaluateAll (o : Options) (evaluate : Evaluator) : List (Bytes × Bytes) → Transcript
  | [] => {}
  | (name, text) :: rest =>
    (evaluateAndPrint o evaluate name text).andThen fun _ => evaluateAll o evaluate rest

def evaluateFiles (o : Options) (files : Files) (evaluate : Evaluator) : List Bytes → Transcript
  | [] => {}
  | name :: rest =>
    match files.read name with
    | .error problem => { failure := some problem }
    | .ok text =>
      (evaluateAndPrint o evaluate name text).andThen fun _ => evaluateFiles o files evaluate rest

def evaluateDocuments (o : Options) (files : Files) (input : Bytes) (evaluate : Evaluator)
    (names : List Bytes) : Transcript :=
  match names with
  | [] => evaluateAndPrint o evaluate "<stdin>" input
  | names => evaluateFiles o files evaluate names

def longestLine : Nat := 65535

def expressionsOf (text : Bytes) : Except Bytes (List Bytes) :=
  let lines := Bytes.splitOn 10 text
  if lines.any fun line => longestLine < line.length then .error "bufio.Scanner: token too long"
  else .ok ((lines.map Text.trim).filter fun line => !line.isEmpty)

def numbered (expressions : List Bytes) : List (Bytes × Bytes) :=
  expressions.zipIdx.map fun (e, i) => ("<expr " ++ Bytes.ofNat (i + 1) ++ ">", e)

def compileFile (files : Files) (grammar start : Bytes) : Except Bytes (Parser Bytes) :=
  match files.read grammar with
  | .error problem => .error problem
  | .ok text =>
    match Ebnf.Grammar.parse grammar text with
    | .error problem => .error problem
    | .ok g => g.compile start

def perform (o : Options) (files : Files) (input : Bytes) : Task → Transcript
  | .json names =>
    evaluateDocuments o files input (fun text s => mapValue .json (Json.parse text s)) names
  | .xml pretty names =>
    let output (root : Xml.Element) : Output :=
      if pretty then .raw (root.toNode.print []) else .xml root
    evaluateDocuments o files input (fun text s => mapValue output (Xml.parse text s)) names
  | .calc expressions =>
    let evaluate : Evaluator := fun text s => mapValue .number (Calc.evaluate text s)
    match if expressions.isEmpty then expressionsOf input else .ok expressions with
    | .error problem => { failure := some problem }
    | .ok expressions => evaluateAll o evaluate (numbered expressions)
  | .ebnf grammar start names =>
    match compileFile files grammar start with
    | .error problem => { failure := some problem }
    | .ok parser =>
      evaluateDocuments o files input (fun text s => mapValue .text (parser.evaluate text s)) names

def Task.readsInput : Task → Bool
  | .json names | .xml _ names | .calc names | .ebnf _ _ names => names.isEmpty

inductive Refusal where
  | badConfiguration
  | obstacle (o : Obstacle)

def configurationFile : Bytes := ".parsec.toml"

/-- Reads a command line with the configuration that lies among the files, if there is one. -/
def understand (files : Files) (words : List Bytes) : Except Refusal Request :=
  let configuration? :=
    match files.find configurationFile with
    | .ok (.file text) => Toml.read? text
    | .ok .directory => none
    | .error _ => some []
  match configuration? with
  | none => .error .badConfiguration
  | some configuration => (readRequest files configuration words).mapError .obstacle

inductive Result where
  | refused (why : Refusal)
  | shown (output : Bytes)
  | ran (invocation : Invocation) (transcript : Transcript)

def Request.fulfil (files : Files) (input : Bytes) : Request → Result
  | .help => .shown []
  | .version => .shown (versionName ++ "\n")
  | .run invocation => .ran invocation (perform invocation.options files input invocation.task)

def run (files : Files) (input : Bytes) (words : List Bytes) : Result :=
  match understand files words with
  | .error why => .refused why
  | .ok request => request.fulfil files input

end Backtrack.Command
