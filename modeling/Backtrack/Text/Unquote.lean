import Backtrack.Text.Utf8

/-!
# Reading quoted literals

A literal in double quotes has escapes for single characters, for bytes and for code points, and no
line break. A literal in back quotes stands for what is between them, without carriage returns.
-/

namespace Backtrack.Text

def letterEscape? (b : UInt8) : Option UInt8 :=
  if b = Bytes.ascii 'a' then some 7
  else if b = Bytes.ascii 'b' then some 8
  else if b = Bytes.ascii 'f' then some 12
  else if b = Bytes.ascii 'n' then some 10
  else if b = Bytes.ascii 'r' then some 13
  else if b = Bytes.ascii 't' then some 9
  else if b = Bytes.ascii 'v' then some 11
  else if b = Bytes.ascii '\\' || b = Bytes.ascii '\x22' then some b
  else none

def hexNumber? (digits : Bytes) : Option Nat :=
  digits.foldlM (fun n b => (Bytes.hexValue? b).map (16 * n + ·)) 0

def octalNumber? (digits : Bytes) : Option Nat :=
  digits.foldlM (fun n b => if 48 ≤ b && b ≤ 55 then some (8 * n + (b.toNat - 48)) else none) 0

def byteEscape? (n : Option Nat) : Option Bytes :=
  n.bind fun n => if n < 256 then some [n.toUInt8] else none

def pointEscape? (n : Option Nat) : Option Bytes :=
  n.bind fun n => if n.isValidChar then some (Utf8.encode (Char.ofNat n)) else none

def before? (item : Option Bytes) (rest : Option Bytes) : Option Bytes := do
  let bytes ← item
  return bytes ++ (← rest)

/-- Reads what follows the opening double quote, up to a closing one that ends the text. The first
`copy` bytes belong to a character that is taken over as it is. -/
def unquoteInside : (copy : Nat) → Bytes → Option Bytes
  | _, [] => none
  | copy + 1, b :: rest => (unquoteInside copy rest).map (b :: ·)
  | 0, 34 :: rest => if rest.isEmpty then some [] else none
  | 0, 10 :: _ => none
  | 0, 92 :: 120 :: a :: b :: rest =>
    before? (byteEscape? (hexNumber? [a, b])) (unquoteInside 0 rest)
  | 0, 92 :: 117 :: a :: b :: c :: d :: rest =>
    before? (pointEscape? (hexNumber? [a, b, c, d])) (unquoteInside 0 rest)
  | 0, 92 :: 85 :: a :: b :: c :: d :: e :: f :: g :: h :: rest =>
    before? (pointEscape? (hexNumber? [a, b, c, d, e, f, g, h])) (unquoteInside 0 rest)
  | 0, 92 :: b :: rest =>
    match letterEscape? b with
    | some c => (unquoteInside 0 rest).map (c :: ·)
    | none =>
      match rest with
      | c :: d :: rest => before? (byteEscape? (octalNumber? [b, c, d])) (unquoteInside 0 rest)
      | _ => none
  | 0, 92 :: [] => none
  | 0, b :: rest =>
    match Utf8.strict? (b :: rest) with
    | some (_, width) => (unquoteInside (width - 1) rest).map (b :: ·)
    | none => (unquoteInside 0 rest).map (Utf8.encode Utf8.replacement ++ ·)

def unquote? : Bytes → Option Bytes
  | 34 :: rest => unquoteInside 0 rest
  | 96 :: rest =>
    let inside := rest.dropLast
    if rest.getLast? = some 96 && !inside.contains 96 then some (inside.filter (· ≠ 13)) else none
  | _ => none

end Backtrack.Text
