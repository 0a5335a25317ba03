import Backtrack.Text.Utf8
import Backtrack.Text.Category

/-!
# Quoted text

How messages show a text: in double quotes, with printable characters as they are, the usual short
escapes, and numeric escapes for everything else. A stray byte is written with two hexadecimal
digits.
-/

namespace Backtrack.Text

def shortEscape? (c : Char) : Option Char :=
  match c.toNat with
  | 7 => some 'a'
  | 8 => some 'b'
  | 12 => some 'f'
  | 10 => some 'n'
  | 13 => some 'r'
  | 9 => some 't'
  | 11 => some 'v'
  | _ => none

def quotedChar (quote : Char) (c : Char) : Bytes :=
  if c = quote || c = '\\' then [Bytes.ascii '\\', Bytes.ascii c]
  else if isPrintable c.toNat then Utf8.encode c
  else
    match shortEscape? c with
    | some e => [Bytes.ascii '\\', Bytes.ascii e]
    | none =>
      if c.toNat < 32 || c.toNat = 127 then "\\x" ++ Bytes.hex 2 c.toNat
      else if c.toNat < 0x10000 then "\\u" ++ Bytes.hex 4 c.toNat
      else "\\U" ++ Bytes.hex 8 c.toNat

def quotedItem (quote : Char) (item : Utf8.Item) : Bytes :=
  if item.wellFormed then quotedChar quote item.char
  else "\\x" ++ item.bytes.flatMap fun b => Bytes.hex 2 b.toNat

def quoted (text : Bytes) : Bytes :=
  "\"" ++ (Utf8.items text).flatMap (quotedItem '\x22') ++ "\""

def quotedSingle (c : Char) : Bytes := "'" ++ quotedChar '\x27' c ++ "'"

end Backtrack.Text
