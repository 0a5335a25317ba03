/-!
# Byte strings

Every text the library handles is a list of bytes, because offsets count bytes and a text need not
be well-formed UTF-8. String literals are read as their UTF-8 bytes.
-/

namespace Backtrack

abbrev Bytes := List UInt8

namespace Bytes

def ofString (s : String) : Bytes := s.toUTF8.data.toList

instance : Coe String Bytes := ⟨ofString⟩

def ascii (c : Char) : UInt8 := c.toNat.toUInt8

def ofNat (n : Nat) : Bytes :=
  if n < 10 then [(48 + n).toUInt8] else ofNat (n / 10) ++ [(48 + n % 10).toUInt8]
termination_by n

/-- The decimal numeral of an integer, with a minus sign when it is negative. -/
def ofInt (i : Int) : Bytes :=
  if i < 0 then ascii '-' :: ofNat i.natAbs else ofNat i.natAbs

/-- The lower-case hexadecimal digit of a number below sixteen. -/
def hexDigit (n : Nat) : UInt8 := (if n < 10 then 48 + n else 87 + n).toUInt8

def hex (width n : Nat) : Bytes :=
  (List.range width).reverse.map fun i => hexDigit (n / Nat.pow 16 i % 16)

def isDigit (b : UInt8) : Bool := 48 ≤ b && b ≤ 57

def isLetter (b : UInt8) : Bool := (65 ≤ b && b ≤ 90) || (97 ≤ b && b ≤ 122)

def hexValue? (b : UInt8) : Option Nat :=
  if isDigit b then some (b.toNat - 48)
  else if 97 ≤ b && b ≤ 102 then some (b.toNat - 87)
  else if 65 ≤ b && b ≤ 70 then some (b.toNat - 55)
  else none

def digit? (base : Nat) (b : UInt8) : Option Nat :=
  (hexValue? b).bind fun d => if d < base then some d else none

def numberIn? (base : Nat) (digits : Bytes) : Option Nat :=
  if digits.isEmpty then none
  else digits.foldlM (fun n b => (digit? base b).map (base * n + ·)) 0

def digitsValue (ds : Bytes) : Nat := ds.foldl (fun n b => 10 * n + (b.toNat - 48)) 0

/-- The rest of a text behind the given beginning, if it begins so. -/
def dropStart? : (start text : Bytes) → Option Bytes
  | [], t => some t
  | _ :: _, [] => none
  | b :: s, c :: t => if b = c then dropStart? s t else none

def occursIn (needle : Bytes) : Bytes → Bool
  | [] => needle.isEmpty
  | b :: t => needle.isPrefixOf (b :: t) || occursIn needle t

/-- Cuts a text at the first occurrence of a mark: what stands before and what stands behind. -/
def cut? (mark : Bytes) : Bytes → Option (Bytes × Bytes)
  | [] => if mark.isEmpty then some ([], []) else none
  | b :: t =>
    match dropStart? mark (b :: t) with
    | some rest => some ([], rest)
    | none => (cut? mark t).map fun (before, behind) => (b :: before, behind)

def join (separator : Bytes) : List Bytes → Bytes
  | [] => []
  | [t] => t
  | t :: ts => t ++ separator ++ join separator ts

/-- The pieces of a text between occurrences of a byte; there is always at least one. -/
def splitOn (mark : UInt8) : Bytes → List Bytes
  | [] => [[]]
  | b :: t =>
    if b = mark then [] :: splitOn mark t
    else
      match splitOn mark t with
      | [] => [[b]]
      | piece :: pieces => (b :: piece) :: pieces

def lt : Bytes → Bytes → Bool
  | _, [] => false
  | [], _ :: _ => true
  | a :: s, b :: t => a < b || (a = b && lt s t)

def times : Nat → Bytes → Bytes
  | 0, _ => []
  | n + 1, t => t ++ times n t

end Bytes

end Backtrack
