import Backtrack.Regex.Basic
import Backtrack.Regex.Error
import Backtrack.Text.Utf8

/-!
# Escapes and bracketed classes in patterns

Each reader takes the rest of the pattern and answers what it read together with what is left. A
reader that finds something else answers `none`; one that finds something malformed fails.
-/

namespace Backtrack.Regex

abbrev Reading (α : Type) := Except Error α

def consumed (whole rest : Bytes) : Bytes := whole.take (whole.length - rest.length)

/-- The next character and what follows it. At the end of the pattern it is U+FFFD. -/
def nextChar (t : Bytes) : Reading (Char × Bytes) :=
  match t with
  | [] => .ok (Utf8.replacement, [])
  | _ =>
    match Utf8.strict? t with
    | some (c, width) => .ok (c, t.drop width)
    | none => .error ⟨.invalidUtf8, t⟩

/-- Fails at the first byte that starts no character. `skip` bytes belong to the character
before. -/
def checkUtf8 : (skip : Nat) → Bytes → Reading Unit
  | _, [] => .ok ()
  | skip + 1, _ :: rest => checkUtf8 skip rest
  | 0, b :: rest =>
    match Utf8.strict? (b :: rest) with
    | some (_, width) => checkUtf8 (width - 1) rest
    | none => .error ⟨.invalidUtf8, b :: rest⟩

def isOctal (b : UInt8) : Bool := 48 ≤ b && b ≤ 55

def readOctal : (n value : Nat) → Bytes → Nat × Bytes
  | n + 1, value, b :: rest =>
    if isOctal b then readOctal n (value * 8 + (b.toNat - 48)) rest else (value, b :: rest)
  | _, value, rest => (value, rest)

def hexChar? (c : Char) : Option Nat :=
  if c.toNat < 128 then Bytes.hexValue? c.toNat.toUInt8 else none

/-- Hexadecimal digits up to a closing brace. The second component is what is left; there is a value
only if there was a digit and all were in range. `fuel` bounds the number of digits. -/
def readBraced : (fuel : Nat) → (value : Option Nat) → Bytes → Reading (Option Nat × Bytes)
  | 0, _, t => .ok (none, t)
  | _, _, [] => .ok (none, [])
  | fuel + 1, value, t => do
    let (c, rest) ← nextChar t
    if c = '\x7d' then return (value, rest)
    match hexChar? c with
    | none => return (none, rest)
    | some v =>
      let n := value.getD 0 * 16 + v
      if 0x10FFFF < n then return (none, rest)
      readBraced fuel (some n) rest

def readEscape (s : Bytes) : Reading (Nat × Bytes) := do
  let t := s.drop 1
  if t.isEmpty then throw ⟨.trailingBackslash, []⟩
  let (c, t) ← nextChar t
  let invalid {α : Type} (left : Bytes) : Reading α := .error ⟨.invalidEscape, consumed s left⟩
  match c with
  | 'a' => return (7, t)
  | 'f' => return (12, t)
  | 'n' => return (10, t)
  | 'r' => return (13, t)
  | 't' => return (9, t)
  | 'v' => return (11, t)
  | 'x' =>
    if t.isEmpty then invalid t
    else
      let (d, u) ← nextChar t
      if d = '\x7b' then
        match ← readBraced u.length none u with
        | (some n, rest) => return (n, rest)
        | (none, rest) => invalid rest
      else
        let (e, v) ← nextChar u
        match hexChar? d, hexChar? e with
        | some x, some y => return (x * 16 + y, v)
        | _, _ => invalid v
  | _ =>
    let n := c.toNat
    if n = 48 || (49 ≤ n && n ≤ 55 && (t.head?).any isOctal) then return readOctal 2 (n - 48) t
    else if n < 128 && !Bytes.isDigit n.toUInt8 && !Bytes.isLetter n.toUInt8 then return (n, t)
    else invalid t

/-- A class as it stands in a pattern, taken up to case where the pattern says so. -/
def caseAware (ignoreCase : Bool) (c : CharClass) : CharClass := if ignoreCase then .folded c else c

def signed (positive : Bool) (c : CharClass) : CharClass := if positive then c else .complement c

/-- The classes of the escapes for digits, blanks and word characters. -/
def shortClass? (ignoreCase : Bool) (b : UInt8) : Option CharClass :=
  let named (positive : Bool) (c : CharClass) := some (signed positive (caseAware ignoreCase c))
  if b = Bytes.ascii 'd' then named true .digit
  else if b = Bytes.ascii 'D' then named false .digit
  else if b = Bytes.ascii 's' then named true .blank
  else if b = Bytes.ascii 'S' then named false .blank
  else if b = Bytes.ascii 'w' then named true .word
  else if b = Bytes.ascii 'W' then named false .word
  else none

/-- The escape for digits, blanks or word characters at the start of `t`. -/
def readShortClass? (ignoreCase : Bool) : Bytes → Option (CharClass × Bytes)
  | 92 :: b :: rest => (shortClass? ignoreCase b).map (·, rest)
  | _ => none

def posixClasses : List (String × List (Nat × Nat)) :=
  [("alnum", [(48, 57), (65, 90), (97, 122)]),
   ("alpha", [(65, 90), (97, 122)]),
   ("ascii", [(0, 127)]),
   ("blank", [(9, 9), (32, 32)]),
   ("cntrl", [(0, 31), (127, 127)]),
   ("digit", [(48, 57)]),
   ("graph", [(33, 126)]),
   ("lower", [(97, 122)]),
   ("print", [(32, 126)]),
   ("punct", [(33, 47), (58, 64), (91, 96), (123, 126)]),
   ("space", [(9, 13), (32, 32)]),
   ("upper", [(65, 90)]),
   ("word", [(48, 57), (65, 90), (95, 95), (97, 122)]),
   ("xdigit", [(48, 57), (65, 70), (97, 102)])]

/-- A class name between `[:` and `:]`, with `^` in front for its complement. -/
def readPosixClass? (ignoreCase : Bool) (t : Bytes) : Reading (Option (CharClass × Bytes)) :=
  match t with
  | 91 :: 58 :: rest =>
    match Bytes.cut? ":]" rest with
    | none => .ok none
    | some (name, left) =>
      let (positive, name) :=
        match name with
        | 94 :: plain => (false, plain)
        | _ => (true, name)
      match posixClasses.find? fun (known, _) => Bytes.ofString known == name with
      | some (_, intervals) =>
        .ok (some (signed positive (caseAware ignoreCase (.ranges intervals)), left))
      | none => .error ⟨.invalidCharRange, consumed t left⟩
  | _ => .ok none

/-- The classes that have a name of their own and are neither a category nor a script. -/
def specialClass? (key : String) : Option CharClass :=
  match key with
  | "any" => some .any
  | "ascii" => some .ascii
  | "assigned" => some (.complement (.categories [.cn]))
  | _ => none

def propertyClass? (name : Bytes) : Option CharClass := do
  let name ← String.fromUTF8? ⟨name.toArray⟩
  specialClass? (Text.nameKey name) <|> (Text.Category.named? name).map .categories
    <|> (Text.scriptCode? name).map .script

/-- The escape for a Unicode property at the start of `s`: a name of one letter, or any name in
braces. -/
def readProperty? (ignoreCase : Bool) (s : Bytes) : Reading (Option (CharClass × Bytes)) :=
  match s with
  | 92 :: p :: t =>
    if p ≠ Bytes.ascii 'p' && p ≠ Bytes.ascii 'P' then .ok none
    else do
      let (c, afterChar) ← nextChar t
      let (name, left) ←
        if c ≠ '\x7b' then pure (t.take c.utf8Size, afterChar)
        else
          match Bytes.cut? "\x7d" (t.drop 1) with
          | some (name, left) => do
            checkUtf8 0 name
            pure (name, left)
          | none => do
            checkUtf8 0 s
            throw ⟨.invalidCharRange, s⟩
      let positive := p = Bytes.ascii 'p'
      let (positive, name) :=
        match name with
        | 94 :: plain => (!positive, plain)
        | _ => (positive, name)
      match propertyClass? name with
      | some c => return some (signed positive (caseAware ignoreCase c), left)
      | none => throw ⟨.invalidCharRange, consumed s left⟩
  | _ => .ok none

def readClassChar (whole t : Bytes) : Reading (Nat × Bytes) :=
  match t with
  | [] => .error ⟨.missingBracket, whole⟩
  | 92 :: _ => readEscape t
  | _ => do
    let (c, rest) ← nextChar t
    return (c.toNat, rest)

def readClassRange (ignoreCase : Bool) (whole t : Bytes) : Reading (CharClass × Bytes) := do
  let (lo, rest) ← readClassChar whole t
  match rest with
  | 45 :: b :: more =>
    if b = Bytes.ascii ']' then return (caseAware ignoreCase (.ranges [(lo, lo)]), rest)
    else
      let (hi, left) ← readClassChar whole (b :: more)
      if hi < lo then throw ⟨.invalidCharRange, consumed t left⟩
      return (caseAware ignoreCase (.ranges [(lo, hi)]), left)
  | _ => return (caseAware ignoreCase (.ranges [(lo, lo)]), rest)

/-- One member of a bracketed class: a named class, a property, a short class or a range. -/
def readClassMember (ignoreCase : Bool) (whole t : Bytes) : Reading (CharClass × Bytes) := do
  if let some found ← readPosixClass? ignoreCase t then return found
  if let some found ← readProperty? ignoreCase t then return found
  if let some found := readShortClass? ignoreCase t then return found
  readClassRange ignoreCase whole t

/-- The members of a bracketed class up to the closing bracket, which may be the first member.
`fuel` bounds their number. -/
def readClassMembers (ignoreCase : Bool) (whole : Bytes) :
    (fuel : Nat) → (first : Bool) → CharClass → Bytes → Reading (CharClass × Bytes)
  | 0, _, _, _ => .error ⟨.missingBracket, whole⟩
  | fuel + 1, first, c, t =>
    if !first && t.head? = some (Bytes.ascii ']') then .ok (c, t.drop 1)
    else do
      let (member, rest) ← readClassMember ignoreCase whole t
      readClassMembers ignoreCase whole fuel false (.union c member) rest

def readClass (ignoreCase : Bool) (s : Bytes) : Reading (CharClass × Bytes) := do
  let t := s.drop 1
  let positive := t.head? ≠ some (Bytes.ascii '^')
  let t := if positive then t else t.drop 1
  let (c, rest) ← readClassMembers ignoreCase s (s.length + 1) true .none t
  return (signed positive c, rest)

end Backtrack.Regex
