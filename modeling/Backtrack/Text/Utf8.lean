import Backtrack.Text.Bytes

/-!
# UTF-8

Decoding is strict: overlong forms, surrogates, values past U+10FFFF and broken sequences are not
characters. Where a text has to be read as characters all the same, a byte that starts no character
counts as one U+FFFD of width one.
-/

namespace Backtrack.Utf8

def replacement : Char := '\uFFFD'

def continuation? (b : UInt8) : Option Nat :=
  if 128 ≤ b.toNat && b.toNat < 192 then some (b.toNat - 128) else none

/-- A decoded value is accepted only in its shortest form and only if it is a scalar value. -/
def scalar? (least size value : Nat) : Option (Char × Nat) :=
  if least ≤ value ∧ value.isValidChar then some (Char.ofNat value, size) else none

/-- The character at the start of a text with its width in bytes, if a well-formed one is there. -/
def strict? : Bytes → Option (Char × Nat)
  | [] => none
  | b :: rest =>
    if b.toNat < 128 then some (Char.ofNat b.toNat, 1)
    else if b.toNat < 192 then none
    else if b.toNat < 224 then do
      let x ← rest[0]? >>= continuation?
      scalar? 0x80 2 ((b.toNat - 192) * 64 + x)
    else if b.toNat < 240 then do
      let x ← rest[0]? >>= continuation?
      let y ← rest[1]? >>= continuation?
      scalar? 0x800 3 (((b.toNat - 224) * 64 + x) * 64 + y)
    else if b.toNat < 248 then do
      let x ← rest[0]? >>= continuation?
      let y ← rest[1]? >>= continuation?
      let z ← rest[2]? >>= continuation?
      scalar? 0x10000 4 ((((b.toNat - 240) * 64 + x) * 64 + y) * 64 + z)
    else none

/-- The character at the start of a text with its width in bytes; a byte that starts no character
is read as U+FFFD of width one. Nothing is read from an empty text. -/
def decode? : Bytes → Option (Char × Nat)
  | [] => none
  | text => some ((strict? text).getD (replacement, 1))

/-- The character at an offset of a text with its width; nothing is there at or past the end. -/
def at? (text : Array UInt8) (offset : Nat) : Option (Char × Nat) :=
  decode? (text.extract offset (offset + 4)).toList

def encode (c : Char) : Bytes :=
  let n := c.toNat
  if n < 0x80 then [n.toUInt8]
  else if n < 0x800 then [(192 + n / 64).toUInt8, (128 + n % 64).toUInt8]
  else if n < 0x10000 then
    [(224 + n / 4096).toUInt8, (128 + n / 64 % 64).toUInt8, (128 + n % 64).toUInt8]
  else
    [(240 + n / 262144).toUInt8, (128 + n / 4096 % 64).toUInt8, (128 + n / 64 % 64).toUInt8,
      (128 + n % 64).toUInt8]

/-- The UTF-8 bytes of a code point; what is not a scalar value is written as U+FFFD. -/
def encodeNat (n : Nat) : Bytes :=
  encode (if n.isValidChar then Char.ofNat n else replacement)

structure Item where
  char : Char
  wellFormed : Bool
  bytes : Bytes
  deriving DecidableEq, Repr

/-- The characters of a text. `skip` bytes belong to the character before. -/
def itemsFrom : (skip : Nat) → Bytes → List Item
  | _, [] => []
  | skip + 1, _ :: rest => itemsFrom skip rest
  | 0, b :: rest =>
    match strict? (b :: rest) with
    | some (c, n) => ⟨c, true, (b :: rest).take n⟩ :: itemsFrom (n - 1) rest
    | none => ⟨replacement, false, [b]⟩ :: itemsFrom 0 rest

def items (text : Bytes) : List Item := itemsFrom 0 text

def chars (text : Bytes) : List Char := (items text).map Item.char

def isValid (text : Bytes) : Bool := (items text).all Item.wellFormed

def ofChars (cs : List Char) : Bytes := cs.flatMap encode

end Backtrack.Utf8
