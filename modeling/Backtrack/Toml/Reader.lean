import Backtrack.Text.Utf8
import Backtrack.Toml.Document

/-!
# Reading TOML

A document is a list of lines: an assignment, a header, or nothing, each perhaps with a comment.
Every reader takes the characters from a place on and answers what it read with the characters that
are left. Where `fuel` is given it bounds the number of steps, each of which takes a character at
least.
-/

namespace Backtrack.Toml

abbrev Reader (α : Type) := List Char → Option (α × List Char)

def isGap (c : Char) : Bool := c = ' ' || c = '\t'

/-- Whether a character may not stand in comments and strings. -/
def isControl (c : Char) : Bool := (c.toNat < 32 && c ≠ '\t') || c.toNat = 127

def skipGap (cs : List Char) : List Char := cs.dropWhile isGap

def skipComment : List Char → Option (List Char)
  | '#' :: cs =>
    match cs.dropWhile fun c => !isControl c with
    | [] => some []
    | '\n' :: rest => some ('\n' :: rest)
    | '\r' :: '\n' :: rest => some ('\n' :: rest)
    | _ => none
  | cs => some cs

def skipLineEnd? : List Char → Option (List Char)
  | '\n' :: cs => some cs
  | '\r' :: '\n' :: cs => some cs
  | _ => none

/-- Passes over the rest of a line on which nothing else stands. -/
def finishLine (cs : List Char) : Option (List Char) := do
  match ← skipComment (skipGap cs) with
  | [] => some []
  | rest => skipLineEnd? rest

/-- Passes over spaces, comments and line ends. -/
def skipLines : (fuel : Nat) → List Char → Option (List Char)
  | 0, cs => some cs
  | fuel + 1, cs => do
    let rest ← skipComment (skipGap cs)
    match skipLineEnd? rest with
    | some rest => skipLines fuel rest
    | none => some rest

def codeEscape? (digits : List Char) : Option Char :=
  (digits.foldlM (fun n c => (Bytes.hexValue? c.toNat.toUInt8).map (16 * n + ·)) 0).bind fun n =>
    if digits.all (fun c => c.toNat < 128) && n.isValidChar then some (Char.ofNat n) else none

def letterEscape? : Char → Option Char
  | 'b' => some '\x08'
  | 't' => some '\t'
  | 'n' => some '\n'
  | 'f' => some '\x0c'
  | 'r' => some '\r'
  | '\x22' => some '\x22'
  | '\\' => some '\\'
  | _ => none

def escape? : Reader Char
  | 'u' :: a :: b :: c :: d :: rest => (codeEscape? [a, b, c, d]).map fun x => (x, rest)
  | 'U' :: a :: b :: c :: d :: e :: f :: g :: h :: rest =>
    (codeEscape? [a, b, c, d, e, f, g, h]).map fun x => (x, rest)
  | c :: rest => (letterEscape? c).map fun x => (x, rest)
  | [] => none

def consRead (c : Char) (read : Option (List Char × List Char)) : Option (List Char × List Char) :=
  read.map fun (cs, rest) => (c :: cs, rest)

def basicString : (fuel : Nat) → Reader (List Char)
  | 0, _ => none
  | _, [] => none
  | fuel + 1, c :: cs =>
    if c = '\x22' then some ([], cs)
    else if c = '\\' then do
      let (x, rest) ← escape? cs
      consRead x (basicString fuel rest)
    else if isControl c then none
    else consRead c (basicString fuel cs)

/-- A string without escapes, behind its opening quote. -/
def literalString : Reader (List Char)
  | [] => none
  | c :: cs =>
    if c = '\x27' then some ([], cs)
    else if isControl c then none
    else consRead c (literalString cs)

/-- Passes over white space, line ends included. -/
def skipBlank : List Char → List Char
  | [] => []
  | '\r' :: '\n' :: cs => skipBlank cs
  | c :: cs => if isGap c || c = '\n' then skipBlank cs else c :: cs

/-- The quotes that a string in triple quotes ends with so far. -/
structure Tail where
  quotes : Nat := 0
  slash : Bool := false

def Tail.more (t : Tail) : Tail := { t with quotes := t.quotes + 1 }

/-- Whether a quote with three more behind it belongs to the string. Up to two quotes may stand in
front of the closing ones; behind a backslash there may be a third. -/
def Tail.admits (t : Tail) : Bool := t.quotes < 2 || (t.quotes = 2 && t.slash)

def Tail.ofEscape (letter : Option Char) : Tail :=
  if letter = some '\x22' then { quotes := 1, slash := true } else { slash := letter = some '\\' }

/-- A string in triple quotes, behind its opening quotes. A backslash at the end of a line joins it
to what follows. -/
def tripleString (quote : Char) : (fuel : Nat) → Tail → Reader (List Char)
  | 0, _, _ => none
  | _, _, [] => none
  | fuel + 1, tail, c :: cs =>
    if c = quote then
      if [quote, quote].isPrefixOf cs && (cs.drop 2).head? ≠ some quote then some ([], cs.drop 2)
      else if [quote, quote].isPrefixOf cs && !tail.admits then none
      else consRead c (tripleString quote fuel tail.more cs)
    else if c = '\\' && quote = '\x22' then
      if (skipLineEnd? (skipGap cs)).isSome then tripleString quote fuel {} (skipBlank cs)
      else do
        let (x, rest) ← escape? cs
        consRead x (tripleString quote fuel (.ofEscape cs.head?) rest)
    else if c = '\n' || (c = '\r' && cs.head? = some '\n') || !isControl c then
      consRead c (tripleString quote fuel {} cs)
    else none

def shortString? : Reader (List Char)
  | '\x22' :: cs => basicString (cs.length + 1) cs
  | '\x27' :: cs => literalString cs
  | _ => none

/-- A string of any kind. A line end behind triple quotes does not belong to it. -/
def string? : Reader (List Char)
  | a :: b :: c :: cs =>
    if (a = '\x22' || a = '\x27') && b = a && c = a then
      tripleString a (cs.length + 1) {} ((skipLineEnd? cs).getD cs)
    else shortString? (a :: b :: c :: cs)
  | cs => shortString? cs

/-- Whether a character may stand in a key without quotes. -/
def isBare (c : Char) : Bool := c.isAlphanum || c = '_' || c = '-'

def keyPart? (cs : List Char) : Option (Bytes × List Char) :=
  match shortString? cs with
  | some (text, rest) => some (Utf8.ofChars text, rest)
  | none =>
    let text := cs.takeWhile isBare
    if text.isEmpty then none else some (Utf8.ofChars text, cs.dropWhile isBare)

def key? : (fuel : Nat) → Reader Key
  | 0, _ => none
  | fuel + 1, cs => do
    let (part, rest) ← keyPart? (skipGap cs)
    match skipGap rest with
    | '.' :: rest => do
      let (key, rest) ← key? fuel rest
      return (⟨part :: key.way, key.last⟩, rest)
    | rest => return (⟨[], part⟩, rest)

/-- Whether a character may stand in a number, a date or a word. -/
def isWordChar (c : Char) : Bool :=
  c.isAlphanum || c = '_' || c = '+' || c = '-' || c = '.' || c = ':'

/-- A value that is a single word; the two parts of a date with a time may have a space between
them. -/
def wordValue? (cs : List Char) : Option (Value × List Char) :=
  let first := cs.takeWhile isWordChar
  let rest := cs.dropWhile isWordChar
  let (text, rest) :=
    match rest with
    | ' ' :: more =>
      if isDate (Utf8.ofChars first) && (more.head?.map Char.isDigit).getD false then
        (first ++ ' ' :: more.takeWhile isWordChar, more.dropWhile isWordChar)
      else (first, rest)
    | _ => (first, rest)
  (word? (Utf8.ofChars text)).map fun v => (v, rest)

def elements? (form : Reader Form) : (fuel : Nat) → Reader (List Form)
  | 0, _ => none
  | fuel + 1, cs => do
    match ← skipLines (cs.length + 1) cs with
    | ']' :: rest => return ([], rest)
    | cs => do
      let (f, rest) ← form cs
      match ← skipLines (rest.length + 1) rest with
      | ']' :: rest => return ([f], rest)
      | ',' :: rest => do
        let (fs, rest) ← elements? form fuel rest
        return (f :: fs, rest)
      | _ => none

def pair? (form : Reader Form) (cs : List Char) : Option ((Key × Form) × List Char) := do
  let (key, rest) ← key? (cs.length + 1) cs
  match rest with
  | '=' :: rest => do
    let (f, rest) ← form (skipGap rest)
    return ((key, f), rest)
  | _ => none

/-- The pairs of a table on one line, behind a brace or a comma. -/
def pairs? (form : Reader Form) : (fuel : Nat) → Reader (List (Key × Form))
  | 0, _ => none
  | fuel + 1, cs => do
    let (pair, rest) ← pair? form cs
    match skipGap rest with
    | '\x7d' :: rest => return ([pair], rest)
    | ',' :: rest => do
      let (pairs, rest) ← pairs? form fuel rest
      return (pair :: pairs, rest)
    | _ => none

/-- A form whose brackets are nested less than `depth` deep. -/
def form? : (depth : Nat) → Reader Form
  | 0, _ => none
  | depth + 1, cs =>
    match cs with
    | '[' :: rest =>
      (elements? (form? depth) (rest.length + 1) rest).map fun (fs, rest) => (.array fs, rest)
    | '\x7b' :: rest =>
      match skipGap rest with
      | '\x7d' :: rest => some (.table [], rest)
      | rest =>
        (pairs? (form? depth) (rest.length + 1) rest).map fun (ps, rest) => (.table ps, rest)
    | '\x22' :: _ | '\x27' :: _ =>
      (string? cs).map fun (text, rest) => (.scalar (.string (Utf8.ofChars text)), rest)
    | _ => (wordValue? cs).map fun (v, rest) => (.scalar v, rest)

def header? (closing : List Char) (cs : List Char) : Option (Key × List Char) := do
  let (key, rest) ← key? (cs.length + 1) cs
  if closing.isPrefixOf rest then return (key, rest.drop closing.length) else none

def statement? : Reader Statement
  | '[' :: '[' :: cs => (header? [']', ']'] cs).map fun (key, rest) => (.element key, rest)
  | '[' :: cs => (header? [']'] cs).map fun (key, rest) => (.header key, rest)
  | cs => (pair? (form? (cs.length + 1)) cs).map fun ((key, f), rest) => (.assign key f, rest)

def statements? : (fuel : Nat) → List Char → Option (List Statement)
  | 0, _ => some []
  | fuel + 1, cs =>
    match skipGap cs with
    | [] => some []
    | c :: rest =>
      if c = '#' || c = '\n' || c = '\r' then do statements? fuel (← finishLine (c :: rest))
      else do
        let (s, rest) ← statement? (c :: rest)
        return s :: (← statements? fuel (← finishLine rest))

def withoutMark (text : Bytes) : Bytes :=
  match text with
  | 0xFF :: 0xFE :: rest => rest
  | 0xFE :: 0xFF :: rest => rest
  | 0xEF :: 0xBB :: 0xBF :: rest => rest
  | _ => text

def read? (text : Bytes) : Option (List (Bytes × Value)) :=
  let text := withoutMark text
  if !Utf8.isValid text then none
  else do
    let cs := Utf8.chars text
    return (← Document.performAll (← statements? (cs.length + 1) cs)).root

end Backtrack.Toml
