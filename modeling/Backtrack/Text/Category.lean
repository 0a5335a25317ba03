import Backtrack.Text.Bytes
import Backtrack.Text.CategoryTable

/-!
# General categories

The category of every code point and the classes that are unions of categories. Code points are
natural numbers, so that surrogates have a category as well.
-/

namespace Backtrack.Text

inductive Category where
  | cc | cf | cn | co | cs
  | ll | lm | lo | lt | lu
  | mc | me | mn
  | nd | nl | no
  | pc | pd | pe | pf | pi | po | ps
  | sc | sk | sm | so
  | zl | zp | zs
  deriving DecidableEq, Repr

namespace Category

def names : List (String × Category) :=
  [("Cc", cc), ("Cf", cf), ("Cn", cn), ("Co", co), ("Cs", cs),
   ("Ll", ll), ("Lm", lm), ("Lo", lo), ("Lt", lt), ("Lu", lu),
   ("Mc", mc), ("Me", me), ("Mn", mn),
   ("Nd", nd), ("Nl", nl), ("No", no),
   ("Pc", pc), ("Pd", pd), ("Pe", pe), ("Pf", pf), ("Pi", pi), ("Po", po), ("Ps", ps),
   ("Sc", sc), ("Sk", sk), ("Sm", sm), ("So", so),
   ("Zl", zl), ("Zp", zp), ("Zs", zs)]

end Category

def runOf (nameLength : Nat) (run : Bytes) : String × Nat :=
  let digits := run.drop nameLength
  (String.ofList ((run.take nameLength).map fun b => Char.ofNat b.toNat),
    if digits.isEmpty then 1 else Bytes.digitsValue digits)

def startsFrom : (next : Nat) → List (String × Nat) → List (Nat × String)
  | _, [] => []
  | next, (name, length) :: runs => (next, name) :: startsFrom (next + length) runs

def runLines {α : Type} (nameLength : Nat) (meaning : String → α) (table : List (Nat × String)) :
    Array (Nat × Array (Nat × α)) :=
  (table.map fun (first, line) =>
    let runs := (Bytes.splitOn 32 line).map (runOf nameLength)
    let entries := (startsFrom first runs).map fun (start, name) => (start, meaning name)
    (first, entries.toArray)).toArray

/-- The last entry of a sorted table whose start is at most `n`, by halving `fuel` times. -/
def lastStart {α : Type} (table : Array (Nat × α)) (n : Nat) : (fuel lo hi : Nat) → Option α
  | 0, lo, _ => table[lo]?.map Prod.snd
  | fuel + 1, lo, hi =>
    if hi ≤ lo + 1 then table[lo]?.map Prod.snd
    else
      let mid := (lo + hi) / 2
      match table[mid]? with
      | some (start, _) =>
        if start ≤ n then lastStart table n fuel mid hi else lastStart table n fuel lo mid
      | none => none

/-- The value of a table at a code point: first the line is looked up, then the run in it. -/
def atCodePoint {α : Type} (lines : Array (Nat × Array (Nat × α))) (n : Nat) : Option α :=
  (lastStart lines n 32 0 lines.size).bind fun runs => lastStart runs n 32 0 runs.size

def categoryLines : Array (Nat × Array (Nat × Category)) :=
  runLines 2 (fun name => (Category.names.lookup name).getD .cn) categoryRuns

def categoryStarts : Array (Nat × Category) := categoryLines.flatMap Prod.snd

@[irreducible]
def category (n : Nat) : Category := (atCodePoint categoryLines n).getD .cn

/-- What is compared of a property name: letters regardless of case, and neither blanks nor hyphens
nor low lines. -/
def nameKey (name : String) : String :=
  String.ofList ((name.toList.filter fun c => c ≠ ' ' && c ≠ '-' && c ≠ '_').map Char.toLower)

namespace Category

def longNames : List (String × String) :=
  [("Other", "C"), ("Control", "Cc"), ("cntrl", "Cc"), ("Format", "Cf"), ("Unassigned", "Cn"),
   ("Private_Use", "Co"), ("Surrogate", "Cs"),
   ("Letter", "L"), ("Cased_Letter", "LC"), ("Lowercase_Letter", "Ll"), ("Modifier_Letter", "Lm"),
   ("Other_Letter", "Lo"), ("Titlecase_Letter", "Lt"), ("Uppercase_Letter", "Lu"),
   ("Mark", "M"), ("Combining_Mark", "M"), ("Spacing_Mark", "Mc"), ("Enclosing_Mark", "Me"),
   ("Nonspacing_Mark", "Mn"),
   ("Number", "N"), ("Decimal_Number", "Nd"), ("digit", "Nd"), ("Letter_Number", "Nl"),
   ("Other_Number", "No"),
   ("Punctuation", "P"), ("punct", "P"), ("Connector_Punctuation", "Pc"),
   ("Dash_Punctuation", "Pd"), ("Close_Punctuation", "Pe"), ("Final_Punctuation", "Pf"),
   ("Initial_Punctuation", "Pi"), ("Other_Punctuation", "Po"), ("Open_Punctuation", "Ps"),
   ("Symbol", "S"), ("Currency_Symbol", "Sc"), ("Modifier_Symbol", "Sk"), ("Math_Symbol", "Sm"),
   ("Other_Symbol", "So"),
   ("Separator", "Z"), ("Line_Separator", "Zl"), ("Paragraph_Separator", "Zp"),
   ("Space_Separator", "Zs")]

/-- What is compared of the short names: one letter for all categories that start with it, two
letters for one category, and `LC` for the letters with case. -/
def shortKeys : List (String × List Category) :=
  let letters := (names.map fun (full, _) => nameKey (full.take 1).toString).eraseDups
  letters.map (fun key => (key, (names.filter fun (full, _) =>
      nameKey (full.take 1).toString == key).map Prod.snd))
    ++ names.map (fun (full, c) => (nameKey full, [c]))
    ++ [("lc", [ll, lt, lu])]

def longKeys : List (String × List Category) :=
  longNames.filterMap fun (long, short) => (shortKeys.lookup (nameKey short)).map (nameKey long, ·)

def named? (name : String) : Option (List Category) :=
  let key := nameKey name
  shortKeys.lookup key <|> longKeys.lookup key

end Category

def isLetter (n : Nat) : Bool :=
  match category n with
  | .ll | .lm | .lo | .lt | .lu => true
  | _ => false

def isUpper (n : Nat) : Bool := category n = .lu

def isDecimalDigit (n : Nat) : Bool := category n = .nd

/-- Whether a code point is shown as it is in quoted text: letters, marks, numbers, punctuation,
symbols and the ASCII space. -/
def isPrintable (n : Nat) : Bool :=
  n = 32 ||
  match category n with
  | .cc | .cf | .cn | .co | .cs | .zl | .zp | .zs => false
  | _ => true

/-- Whether a code point is white space. -/
def isBlank (n : Nat) : Bool :=
  (9 ≤ n && n ≤ 13) || n = 32 || n = 0x85 || n = 0xA0 || n = 0x1680 ||
    (0x2000 ≤ n && n ≤ 0x200A) || n = 0x2028 || n = 0x2029 || n = 0x202F || n = 0x205F || n = 0x3000

end Backtrack.Text
