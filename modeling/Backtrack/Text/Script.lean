import Backtrack.Text.Category
import Backtrack.Text.ScriptTable

/-!
# Scripts

The script of every code point, by the script's long name.
-/

namespace Backtrack.Text

def scriptLines : Array (Nat × Array (Nat × String)) := runLines 4 id scriptRuns

/-- The first code point of each run of code points of one script. -/
def scriptStarts : Array (Nat × String) := scriptLines.flatMap Prod.snd

def pairsOf {α : Type} : List α → List (α × α)
  | a :: b :: rest => (a, b) :: pairsOf rest
  | _ => []

def scriptKeys : List (String × String) :=
  (pairsOf (scriptNames.flatMap (·.splitOn " "))).map fun (code, long) => (nameKey long, code)

def scriptCode? (name : String) : Option String := scriptKeys.lookup (nameKey name)

def inScript (code : String) (n : Nat) : Bool := atCodePoint scriptLines n == some code

end Backtrack.Text
