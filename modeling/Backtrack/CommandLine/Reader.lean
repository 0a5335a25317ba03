import Backtrack.CommandLine.Flag
import Backtrack.Files

/-!
# Reading command lines

Words are read from left to right. A word that starts with a hyphen is a flag or some flags of one
letter; every other word is the name of a command or an argument of it. Behind two hyphens all words
are arguments.
-/

namespace Backtrack.CommandLine

structure Command where
  name : Bytes
  flags : List Flag
  arguments : List Argument

structure Program where
  flags : List Flag
  commands : List Command

structure Reading where
  values : FlagValues := []
  command : Option Command := none
  given : List (Argument × List Bytes) := []
  pending : List Argument := []

def Reading.flags (program : Program) (r : Reading) : List Flag :=
  program.flags ++ (r.command.map Command.flags).getD []

def Reading.argument (r : Reading) (name : Bytes) : List Bytes :=
  match r.given.find? fun (a, _) => a.name = name with
  | some (_, words) => words
  | none => []

def Reading.path (r : Reading) : Bytes :=
  let arguments := r.given.reverse.map fun (a, _) => a.placeholder
  Bytes.join " " ((r.command.map Command.name).toList ++ arguments)

def findFlag (flags : List Flag) (spelling : Bytes) : Except Mistake Flag :=
  match flags.find? fun f => f.spellings.contains spelling with
  | some f => .ok f
  | none => .error (.unknownFlag spelling (flags.flatMap Flag.spellings))

/-- The value of a flag, which is attached to it or the next word, and the words that are left. -/
def takeValue (flag : Flag) (attached : Option Bytes) (rest : List Bytes) :
    Except Mistake (Bytes × List Bytes) :=
  match attached, rest with
  | some value, _ => .ok (value, rest)
  | none, word :: rest =>
    if isValue word then .ok (word, rest) else .error (.noValue flag (some word))
  | none, [] => .error (.noValue flag none)

def Reading.decode (r : Reading) (flag : Flag) (text : Bytes) : Except Mistake Reading :=
  match flag.kind.decode text with
  | .ok value => .ok { r with values := r.values.set flag.name value }
  | .error problem => .error (.badValue flag.long problem)

/-- Gives a flag that takes no word for a value. Behind the greatest count of 64 bits comes the
least. -/
def Reading.raise (r : Reading) (flag : Flag) : Reading :=
  let value : FlagValue :=
    match flag.kind with
    | .counter => .counter (Int.bmod (r.values.count flag.name + 1) (Nat.pow 2 64))
    | _ => .switch true
  { r with values := r.values.set flag.name value }

def FlagKind.takesWord : FlagKind → Bool
  | .switch | .counter => false
  | .text | .duration => true

def Reading.longFlag (program : Program) (r : Reading) (word : Bytes) (rest : List Bytes) :
    Except Mistake (Reading × List Bytes) := do
  let (name, attached) :=
    match Bytes.cut? [61] (word.drop 2) with
    | some (name, value) => (name, some value)
    | none => (word.drop 2, none)
  let flag ← findFlag (r.flags program) (45 :: 45 :: name)
  match attached with
  | some value => return (← r.decode flag value, rest)
  | none =>
    if flag.kind.takesWord then
      let (value, rest) ← takeValue flag none rest
      return (← r.decode flag value, rest)
    else return (r.raise flag, rest)

/-- Reads flags of one letter. What follows the letter of a flag with a value is the value. -/
def Reading.shortFlags (program : Program) (r : Reading) (rest : List Bytes) :
    Bytes → Except Mistake (Reading × List Bytes)
  | [] => .ok (r, rest)
  | letter :: letters => do
    let flag ← findFlag (r.flags program) [45, letter]
    if flag.kind.takesWord then
      let (value, rest) ← takeValue flag (if letters.isEmpty then none else some letters) rest
      return (← r.decode flag value, rest)
    else shortFlags program (r.raise flag) rest letters

def Argument.decode (files : Files) (a : Argument) (word : Bytes) : Except Mistake Bytes :=
  if a.isFile then
    match files.existing (wellFormed word) with
    | .ok name => .ok name
    | .error problem => .error (.badValue a.summary problem)
  else .ok (wellFormed word)

/-- Reads a word that is no flag, with the words that belong to it. `isWord` says which of the words
that follow are no flags. -/
def Reading.word (program : Program) (files : Files) (isWord : Bytes → Bool) (r : Reading)
    (word : Bytes) (rest : List Bytes) : Except Mistake (Reading × List Bytes) :=
  match r.pending with
  | a :: pending => do
    let more := if a.repeated then rest.takeWhile isWord else []
    let words ← (word :: more).mapM (a.decode files)
    return ({ r with given := (a, words) :: r.given, pending := pending }, rest.drop more.length)
  | [] =>
    match r.command with
    | some _ => .error (.unexpectedArgument word [])
    | none =>
      match program.commands.find? fun c => c.name = word with
      | some c => .ok ({ r with command := some c, pending := c.arguments }, rest)
      | none => .error (.unexpectedArgument word (program.commands.map Command.name))

def readWords (program : Program) (files : Files) : (fuel : Nat) → Reading → List Bytes →
    Except Mistake Reading
  | 0, r, _ => .ok r
  | _, r, [] => .ok r
  | fuel + 1, r, word :: rest => do
    let (r, rest) ← r.word program files (fun _ => true) word rest
    readWords program files fuel r rest

/-- Reads a command line. Every step takes a word at least, so `fuel` need not exceed their
number. -/
def readLine (program : Program) (files : Files) : (fuel : Nat) → Reading → List Bytes →
    Except Mistake Reading
  | 0, r, _ => .ok r
  | _, r, [] => .ok r
  | fuel + 1, r, word :: rest => do
    if word = [45, 45] then readWords program files rest.length r rest
    else
      let (r, rest) ←
        if ([45, 45] : Bytes).isPrefixOf word then r.longFlag program word rest
        else if isValue word then r.word program files isValue word rest
        else r.shortFlags program rest (word.drop 1)
      readLine program files fuel r rest

def Program.read (program : Program) (files : Files) (words : List Bytes) :
    Except Mistake Reading :=
  readLine program files words.length {} words

def Reading.missing (program : Program) (r : Reading) : List Bytes :=
  match r.command with
  | none => program.commands.map Command.name
  | some _ =>
    match (r.pending.filter fun a => !a.optional).map Argument.summary with
    | [] => []
    | names => [Bytes.join " " names]

end Backtrack.CommandLine
