import Backtrack.Text.Quoted

/-!
# Strings in JSON

Decoding takes the quotes and the escapes off a string; encoding puts them on. Encoded strings are
also safe inside a web page: the characters that end a script or a line there are escaped.
-/

namespace Backtrack.Json

/-- Why a quoted string cannot be decoded. -/
inductive EscapeError where
  | unknown (b : UInt8)
  /-- The string ends inside its quotes or inside an escape. -/
  | truncated
  deriving DecidableEq, Repr

def EscapeError.message : EscapeError → Bytes
  | unknown b => "invalid escape character " ++ Text.quotedSingle (Char.ofNat b.toNat)
  | truncated => "truncated string"

def shortEscape? (b : UInt8) : Option UInt8 :=
  if b = Bytes.ascii '\x22' || b = Bytes.ascii '\\' || b = Bytes.ascii '/' then some b
  else if b = Bytes.ascii 'b' then some 8
  else if b = Bytes.ascii 'f' then some 12
  else if b = Bytes.ascii 'n' then some 10
  else if b = Bytes.ascii 'r' then some 13
  else if b = Bytes.ascii 't' then some 9
  else none

/-- The code unit of four hexadecimal digits, zero if one of them is none. -/
def codeUnit (a b c d : UInt8) : Nat :=
  match Bytes.hexValue? a, Bytes.hexValue? b, Bytes.hexValue? c, Bytes.hexValue? d with
  | some a, some b, some c, some d => ((a * 16 + b) * 16 + c) * 16 + d
  | _, _, _, _ => 0

def pairSurrogates? (high low : Nat) : Option Nat :=
  if 0xD800 ≤ high && high < 0xDC00 && 0xDC00 ≤ low && low < 0xE000 then
    some ((high - 0xD800) * 0x400 + (low - 0xDC00) + 0x10000)
  else none

def decoded (bytes : Bytes) (rest : Except EscapeError Bytes) : Except EscapeError Bytes :=
  rest.map (bytes ++ ·)

/-- Decodes the inside of a quoted string. Two code units that form a pair are one character, and a
surrogate on its own is U+FFFD. A second code unit counts only if it is there as a whole, which is
why the pattern of a pair names all of its digits. -/
def decodeInside : Bytes → Except EscapeError Bytes
  | [] => .ok []
  | 92 :: [] => .error .truncated
  | 92 :: 117 :: a :: b :: c :: d :: 92 :: 117 :: e :: f :: g :: h :: rest =>
    match pairSurrogates? (codeUnit a b c d) (codeUnit e f g h) with
    | some n => decoded (Utf8.encodeNat n) (decodeInside rest)
    | none =>
      decoded (Utf8.encodeNat (codeUnit a b c d))
        (decodeInside (92 :: 117 :: e :: f :: g :: h :: rest))
  | 92 :: 117 :: a :: b :: c :: d :: rest =>
    decoded (Utf8.encodeNat (codeUnit a b c d)) (decodeInside rest)
  | 92 :: 117 :: _ => .error .truncated
  | 92 :: b :: rest =>
    match shortEscape? b with
    | some c => decoded [c] (decodeInside rest)
    | none => .error (.unknown b)
  | b :: rest => decoded [b] (decodeInside rest)

/-- Decodes a quoted string. The quotes are dropped unseen; where there is no backslash, nothing else
is done. -/
def decode (text : Bytes) : Except EscapeError Bytes :=
  if text.length < 2 then .error .truncated
  else
    let inside := (text.drop 1).dropLast
    if inside.contains (Bytes.ascii '\\') then decodeInside inside else .ok inside

def encodeChar (c : Char) : Bytes :=
  if c = '\x22' || c = '\\' then [Bytes.ascii '\\', Bytes.ascii c]
  else if c = '\n' then "\\n"
  else if c = '\r' then "\\r"
  else if c = '\t' then "\\t"
  else if c.toNat = 8 then "\\b"
  else if c.toNat = 12 then "\\f"
  else if c.toNat < 32 || c = '<' || c = '>' || c = '&' || c.toNat = 0x2028 || c.toNat = 0x2029 then
    "\\u" ++ Bytes.hex 4 c.toNat
  else Utf8.encode c

/-- A text as a quoted string. A byte that starts no character is written as the three bytes of
U+FFFD, not as an escape. -/
def encode (text : Bytes) : Bytes := "\"" ++ (Utf8.chars text).flatMap encodeChar ++ "\""

end Backtrack.Json
