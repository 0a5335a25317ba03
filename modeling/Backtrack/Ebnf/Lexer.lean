import Backtrack.Ebnf.Token

/-!
# Reading tokens

The text is first laid out as cells, one character each with its position. A reader takes the cells
from a place on and answers those that are left, so the text of a token is what lies between. The
first cell that is left has been seen already: if its bytes are no proper character, the complaint
about that is raised then, at the token being read.
-/

namespace Backtrack.Ebnf

structure Cell where
  char : Char
  bytes : Bytes
  position : Position
  complaint : Option Bytes

def complaintOf (item : Utf8.Item) : Option Bytes :=
  if !item.wellFormed then some "invalid UTF-8 encoding"
  else if item.char.toNat = 0 then some "invalid character NUL"
  else none

def advance (p : Position) (item : Utf8.Item) : Position :=
  if item.char = '\n' then
    { p with offset := p.offset + item.bytes.length, line := p.line + 1, column := 1 }
  else { p with offset := p.offset + item.bytes.length, column := p.column + 1 }

/-- The cells of some characters and the position behind the last. -/
def layOut : Position → List Utf8.Item → List Cell × Position
  | p, [] => ([], p)
  | p, item :: items =>
    let (cells, last) := layOut (advance p item) items
    (⟨item.char, item.bytes, p, complaintOf item⟩ :: cells, last)

structure Scan where
  current : Option Position := none
  complaints : List Bytes := []

namespace Scan

def complain (s : Scan) (otherwise : Position) (message : Bytes) : Scan :=
  { s with complaints := messageAt (s.current.getD otherwise) message :: s.complaints }

def sees (s : Scan) : List Cell → Scan
  | [] => s
  | c :: _ =>
    match c.complaint with
    | some message => s.complain c.position message
    | none => s

/-- Raises a complaint at the current token, of which there is one. -/
def complainHere (s : Scan) (message : Bytes) : Scan := s.complain {} message

end Scan

abbrev Left := List Cell × Scan

def skipOne (cells : List Cell) (s : Scan) : Left := (cells.drop 1, s.sees (cells.drop 1))

def skipWhile (condition : Char → Bool) : List Cell → Scan → Left
  | [], s => ([], s)
  | c :: rest, s =>
    if condition c.char then skipWhile condition rest (s.sees rest) else (c :: rest, s)

def isSeparator (c : Char) : Bool := c = ' ' || c = '\t' || c = '\n' || c = '\r'

def startsIdentifier (c : Char) : Bool := c = '_' || Text.isLetter c.toNat

def continuesIdentifier (c : Char) : Bool := startsIdentifier c || Text.isDecimalDigit c.toNat

inductive Quoting where
  | plain
  | escape
  /-- In an escape that wants more digits. -/
  | digits (base wanted : Nat)

/-- The value of a digit of any base up to sixteen; anything else has a greater value. -/
def digitValue (c : Char) : Nat :=
  if c.toNat < 128 then (Bytes.hexValue? c.toNat.toUInt8).getD 16 else 16

def escapeState? (quote c : Char) : Option (Quoting × Bool) :=
  if "abfnrtv\\".toList.contains c || c = quote then some (.plain, true)
  else if digitValue c < 8 then some (.digits 8 3, false)
  else if c = 'x' then some (.digits 16 2, true)
  else if c = 'u' then some (.digits 16 4, true)
  else if c = 'U' then some (.digits 16 8, true)
  else none

/-- Reads the inside of a quoted literal, up to its closing quote or to the end of the line. Answers
also how many characters it has; `count` are those before. -/
def readQuoted (quote : Char) : Quoting → (count : Nat) → List Cell → Scan → Left × Nat
  | state, count, [], s =>
    let s :=
      match state with
      | .plain | .digits _ 0 => s
      | _ => s.complainHere "invalid char escape"
    let count :=
      match state with
      | .plain => count
      | _ => count + 1
    (([], s.complainHere "literal not terminated"), count)
  | state, count, c :: rest, s =>
    let atPlain (count : Nat) (s : Scan) : Left × Nat :=
      if c.char = quote then ((c :: rest, s), count)
      else if c.char = '\n' then ((c :: rest, s.complainHere "literal not terminated"), count)
      else if c.char = '\\' then readQuoted quote .escape count rest (s.sees rest)
      else readQuoted quote .plain (count + 1) rest (s.sees rest)
    match state with
    | .plain => atPlain count s
    | .escape =>
      match escapeState? quote c.char with
      | some (.plain, _) => readQuoted quote .plain (count + 1) rest (s.sees rest)
      | some (.digits base wanted, false) =>
        readQuoted quote (.digits base (wanted - 1)) count rest (s.sees rest)
      | some (next, _) => readQuoted quote next count rest (s.sees rest)
      | none => atPlain (count + 1) (s.complainHere "invalid char escape")
    | .digits base wanted =>
      if wanted = 0 then atPlain (count + 1) s
      else if digitValue c.char < base then
        readQuoted quote (.digits base (wanted - 1)) count rest (s.sees rest)
      else atPlain (count + 1) (s.complainHere "invalid char escape")

def readRaw : List Cell → Scan → Left
  | [], s => ([], s.complainHere "literal not terminated")
  | c :: rest, s => if c.char = '\x60' then (c :: rest, s) else readRaw rest (s.sees rest)

def readBlockComment : (starred : Bool) → List Cell → Scan → Left
  | _, [], s => ([], s.complainHere "comment not terminated")
  | starred, c :: rest, s =>
    if starred && c.char = '/' then (rest, s.sees rest)
    else readBlockComment (c.char = '*') rest (s.sees rest)

inductive Radix where
  | decimal | leadingZero | octal | hexadecimal | binary
  deriving DecidableEq

def Radix.literal : Radix → Bytes
  | decimal => "decimal literal"
  | leadingZero | octal => "octal literal"
  | hexadecimal => "hexadecimal literal"
  | binary => "binary literal"

def Radix.base : Radix → Nat
  | decimal => 10
  | leadingZero | octal => 8
  | hexadecimal => 16
  | binary => 2

structure Part where
  hasDigit : Bool
  hasSeparator : Bool
  /-- The first digit that the base does not have. -/
  invalid : Option Char

def isDecimal (c : Char) : Bool := '0' ≤ c && c ≤ '9'

def readDigits (base : Nat) (cells : List Cell) (s : Scan) : Part × Left :=
  let isDigit (c : Char) : Bool := if base ≤ 10 then isDecimal c else digitValue c < 16
  let (rest, s) := skipWhile (fun c => isDigit c || c = '_') cells s
  let read := (cells.take (cells.length - rest.length)).map Cell.char
  let invalid := read.find? fun c => isDigit c && base ≤ digitValue c
  (⟨read.any isDigit, read.contains '_', invalid⟩, rest, s)

/-- Whether every separator of a number stands between two digits. `before` is the character before,
with every digit as a zero and a base prefix counting as one. -/
def separatorsFit (isDigit : Char → Bool) : (before : Char) → List Char → Bool
  | before, [] => before ≠ '_'
  | before, c :: rest =>
    if c = '_' then before = '0' && separatorsFit isDigit '_' rest
    else if isDigit c then separatorsFit isDigit '0' rest
    else before ≠ '_' && separatorsFit isDigit '.' rest

def separatorsOk (text : List Char) : Bool :=
  match text with
  | '0' :: c :: rest =>
    if c = 'x' || c = 'X' then separatorsFit (fun c => digitValue c < 16) '0' rest
    else if c = 'o' || c = 'O' || c = 'b' || c = 'B' then separatorsFit isDecimal '0' rest
    else separatorsFit isDecimal '.' text
  | _ => separatorsFit isDecimal '.' text

def headIs (condition : Char → Bool) (cells : List Cell) : Bool :=
  cells.head?.any fun c => condition c.char

/-- Reads the base of a number that starts with zero; the zero is read already. -/
def readRadix (cells : List Cell) (s : Scan) : Radix × Left :=
  let prefixed (r : Radix) : Radix × Left := (r, skipOne cells s)
  match (cells.head?).map Cell.char with
  | some 'x' | some 'X' => prefixed .hexadecimal
  | some 'o' | some 'O' => prefixed .octal
  | some 'b' | some 'B' => prefixed .binary
  | _ => (.leadingZero, cells, s)

def checkExponent (radix : Radix) (c : Char) (s : Scan) : Scan :=
  if (c = 'e' || c = 'E') && radix ≠ .decimal && radix ≠ .leadingZero then
    s.complainHere (Text.quotedSingle c ++ " exponent requires decimal mantissa")
  else if (c = 'p' || c = 'P') && radix ≠ .hexadecimal then
    s.complainHere (Text.quotedSingle c ++ " exponent requires hexadecimal mantissa")
  else s

/-- Reads a number from its first digit on, or from behind its point if that comes first. `start`
are the cells from the start of the token. -/
def readNumber (start : List Cell) (behindPoint : Bool) (cells : List Cell) (s : Scan) :
    Kind × Left :=
  let (radix, cells, s) :=
    if !behindPoint && headIs (· = '0') cells then
      let (rest, s) := skipOne cells s
      readRadix rest s
    else (Radix.decimal, cells, s)
  let (whole, cells, s) :=
    if behindPoint then (⟨false, false, none⟩, cells, s) else readDigits radix.base cells s
  let (hasPoint, cells, s) :=
    if behindPoint then (true, cells, s)
    else if headIs (· = '.') cells then
      let (rest, s) := skipOne cells s
      (true, rest, s)
    else (false, cells, s)
  let s :=
    if hasPoint && (radix = .octal || radix = .binary) then
      s.complainHere ("invalid radix point in " ++ radix.literal)
    else s
  let (part, cells, s) :=
    if hasPoint then readDigits radix.base cells s else (⟨false, false, none⟩, cells, s)
  let s :=
    if radix = .leadingZero || whole.hasDigit || part.hasDigit then s
    else s.complainHere (radix.literal ++ " has no digits")
  let (kind, separated, cells, s) :=
    match cells with
    | c :: rest =>
      if c.char = 'e' || c.char = 'E' || c.char = 'p' || c.char = 'P' then
        let s := checkExponent radix c.char s
        let (rest, s) := (rest, s.sees rest)
        let isSign (c : Char) : Bool := c = '+' || c = '-'
        let (rest, s) := if headIs isSign rest then skipOne rest s else (rest, s)
        let (exponent, rest, s) := readDigits 10 rest s
        let s := if exponent.hasDigit then s else s.complainHere "exponent has no digits"
        (Kind.decimal, exponent.hasSeparator, rest, s)
      else (if hasPoint then Kind.decimal else Kind.integer, false, cells, s)
    | [] => (if hasPoint then Kind.decimal else Kind.integer, false, cells, s)
  let hasExponent := kind = .decimal && !hasPoint
  let s :=
    if radix = .hexadecimal && hasPoint && kind = .decimal && !hasExponentMark start cells then
      s.complainHere "hexadecimal mantissa requires a 'p' exponent"
    else s
  let s :=
    match if kind = .integer && !hasExponent then whole.invalid else none with
    | some c => s.complainHere ("invalid digit " ++ Text.quotedSingle c ++ " in " ++ radix.literal)
    | none => s
  let text := (start.take (start.length - cells.length)).map Cell.char
  let s :=
    if (whole.hasSeparator || part.hasSeparator || separated) && !separatorsOk text then
      s.complainHere "'_' must separate successive digits"
    else s
  (kind, cells, s)
where
  hasExponentMark (start rest : List Cell) : Bool :=
    (start.take (start.length - rest.length)).any fun c => c.char = 'p' || c.char = 'P'

/-- Reads the token that starts with the first cell. Answers `none` for a comment. -/
def readToken (c : Cell) (rest : List Cell) (s : Scan) : Option Kind × Left :=
  let start := c :: rest
  if startsIdentifier c.char then
    (some .identifier, skipWhile continuesIdentifier rest (s.sees rest))
  else if isDecimal c.char then
    let (kind, left) := readNumber start false start s
    (some kind, left)
  else
    let s := s.sees rest
    let closed (kind : Kind) (left : Left) : Option Kind × Left :=
      (some kind, skipOne left.1 left.2)
    match c.char with
    | '\x22' => closed .string (readQuoted '\x22' .plain 0 rest s).1
    | '\x27' =>
      let ((left, s), count) := readQuoted '\x27' .plain 0 rest s
      closed .character (left, if count = 1 then s else s.complainHere "invalid char literal")
    | '\x60' => closed .raw (readRaw rest s)
    | '.' =>
      if headIs isDecimal rest then
        let (kind, left) := readNumber start true rest s
        (some kind, left)
      else (some (.mark '.'), rest, s)
    | '/' =>
      if headIs (· = '/') rest then
        let (rest, s) := skipOne rest s
        (none, skipWhile (· ≠ '\n') rest s)
      else if headIs (· = '*') rest then
        let (rest, s) := skipOne rest s
        (none, readBlockComment false rest s)
      else (some (.mark '/'), rest, s)
    | mark => (some (.mark mark), rest, s)

/-- Reads all tokens, the last of which is the end. `fuel` bounds their number; every token has at
least one character. -/
def readTokens (ending : Position) : (fuel : Nat) → List Cell → Scan → List Token × Scan
  | 0, _, s => ([⟨.ending, ending, []⟩], s)
  | fuel + 1, cells, s =>
    match skipWhile isSeparator cells s with
    | ([], s) => ([⟨.ending, ending, []⟩], s)
    | (c :: rest, s) =>
      match readToken c rest { s with current := some c.position } with
      | (none, left, s) => readTokens ending fuel left s
      | (some kind, left, s) =>
        let text := ((c :: rest).take (rest.length + 1 - left.length)).flatMap Cell.bytes
        let (tokens, s) := readTokens ending fuel left { s with current := none }
        (⟨kind, c.position, text⟩ :: tokens, s)

/-- The tokens of a text and the complaints about them. A byte order mark in front is skipped. -/
def tokensOf (filename text : Bytes) : List Token × List Bytes :=
  let (cells, ending) := layOut { filename := filename, line := 1, column := 1 } (Utf8.items text)
  let s := ({} : Scan).sees cells
  let (cells, s) := if headIs (· = '\uFEFF') cells then skipOne cells s else (cells, s)
  let (tokens, s) := readTokens ending (cells.length + 1) cells s
  (tokens, s.complaints.reverse)

end Backtrack.Ebnf
