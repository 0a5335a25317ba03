import Backtrack.Files
import Backtrack.Text.Utf8

/-!
# The command line of the tree tool

It takes the name of a file and a flag for a start production. Behind two hyphens all words are
arguments, and in front of them a word that starts with an at sign names a file with more words, one
to a line.
-/

namespace Backtrack.Ebnf

/-- A word of the command line, as far as it can be told without knowing the flags. -/
inductive Item where
  | long (name : Bytes) (attached : Option Bytes)
  | short (letter : Bytes) (attached : Option Bytes)
  | argument (text : Bytes)
  | unreadable (problem : Bytes)

structure Words where
  words : List Bytes
  flagsEnded : Bool := false

def chomp (line : Bytes) : Bytes := if line.getLast? = some 13 then line.dropLast else line

/-- The lines of a text; a line end behind the last one is not followed by another. -/
def linesOf (text : Bytes) : List Bytes :=
  let lines := Bytes.splitOn 10 text
  (if lines.getLast? = some [] then lines.dropLast else lines).map chomp

def longestWord : Nat := 65535

/-- The words of a file. Lines that start with a number sign do not count. -/
def wordsOfFile (files : Files) (name : Bytes) : Except Bytes (List Bytes) :=
  let unread (why : Bytes) : Bytes :=
    "failed to read arguments from " ++ Text.quoted name ++ ": " ++ why
  if name.isEmpty then .error "expected @ file to expand arguments from"
  else
    match files.find name with
    | .error why =>
      .error ("failed to open arguments file " ++ Text.quoted name ++ ": "
        ++ Files.openMessage name why)
    | .ok .directory => .error (unread (Files.directoryMessage name))
    | .ok (.file text) =>
      if (Bytes.splitOn 10 text).any fun line => longestWord < line.length then
        .error (unread "bufio.Scanner: token too long")
      else .ok ((linesOf text).filter fun line => line.head? ≠ some 35)

def flagItem (word : Bytes) : Item :=
  if ([45, 45] : Bytes).isPrefixOf word then
    match Bytes.cut? [61] (word.drop 2) with
    | some (name, value) => .long name (some value)
    | none => .long (word.drop 2) none
  else
    match Utf8.decode? (word.drop 1) with
    | some (c, width) =>
      let attached := word.drop (1 + width)
      .short (Utf8.encode c) (if attached.isEmpty then none else some attached)
    | none => .short [] none

/-- The next item and the words behind it. Files of words are opened at most `fuel` times. -/
def Words.next? (files : Files) : (fuel : Nat) → Words → Option (Item × Words)
  | 0, _ => none
  | fuel + 1, w =>
    match w.words with
    | [] => none
    | word :: rest =>
      if w.flagsEnded then some (.argument word, { w with words := rest })
      else if word = [45, 45] then Words.next? files fuel { words := rest, flagsEnded := true }
      else
        match word with
        | 45 :: _ => some (flagItem word, { w with words := rest })
        | 64 :: name =>
          match wordsOfFile files name with
          | .error problem => some (.unreadable problem, { w with words := rest })
          | .ok more => Words.next? files fuel { w with words := more ++ rest }
        | _ => some (.argument word, { w with words := rest })

inductive Given where
  | start (name : Bytes)
  | file (name : Bytes)
  | help

def Given.isFile : Given → Bool
  | file _ => true
  | _ => false

def helpFlags : List Bytes :=
  let names : List Bytes :=
    ["help", "help-long", "help-man", "completion-bash", "completion-script-bash",
     "completion-script-zsh"]
  let denied (name : Bytes) : Bytes := "no-" ++ name
  names ++ names.map denied

def expansionLimit : Nat := 100000

def takeStart (files : Files) (spelling : Bytes) (attached : Option Bytes) (w : Words) :
    Except Bytes (Bytes × Words) :=
  match attached with
  | some value => .ok (value, w)
  | none =>
    match w.next? files expansionLimit with
    | some (.argument value, w) => .ok (value, w)
    | _ => .error ("expected argument for flag '" ++ spelling ++ "'")

def readGiven (files : Files) :
    (fuel : Nat) → (given : List Given) → Words → Except Bytes (List Given)
  | 0, given, _ => .ok given.reverse
  | fuel + 1, given, w =>
    match w.next? files expansionLimit with
    | none => .ok given.reverse
    | some (.unreadable problem, _) => .error problem
    | some (.argument text, w) =>
      if given.any Given.isFile then .error ("unexpected " ++ text)
      else readGiven files fuel (.file text :: given) w
    | some (.long name attached, w) =>
      if name = Bytes.ofString "start" then
        match takeStart files "--start" attached w with
        | .error problem => .error problem
        | .ok (value, w) => readGiven files fuel (.start value :: given) w
      else if helpFlags.contains name then readGiven files fuel (.help :: given) w
      else .error ("unknown long flag '--" ++ name ++ "'")
    | some (.short letter attached, w) =>
      if letter = Bytes.ofString "s" then
        match takeStart files "-s" attached w with
        | .error problem => .error problem
        | .ok (value, w) => readGiven files fuel (.start value :: given) w
      else .error ("unknown short flag '-" ++ letter ++ "'")

structure TreeRequest where
  file : Option (Bytes × Files.Entry) := none
  start : Option Bytes := none
  help : Bool := false

/-- Adds to a request what was given next. The flag may be given once, and the file has to be
there. -/
def TreeRequest.add (files : Files) (r : TreeRequest) : Given → Except Bytes TreeRequest
  | .help => .ok { r with help := true }
  | .start name =>
    match r.start with
    | some _ => .error "flag 'start' cannot be repeated"
    | none => .ok { r with start := some name }
  | .file name =>
    match files.find name with
    | .ok entry => .ok { r with file := some (name, entry) }
    | .error why => .error (Files.openMessage name why)

def readTreeRequest (files : Files) (words : List Bytes) : Except Bytes TreeRequest := do
  (← readGiven files expansionLimit [] ⟨words, false⟩).foldlM (TreeRequest.add files) {}

end Backtrack.Ebnf
