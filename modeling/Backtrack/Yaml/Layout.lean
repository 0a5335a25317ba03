import Backtrack.Text.Base64
import Backtrack.Text.Utf8
import Backtrack.Yaml.Plain

/-!
# Writing YAML

A layout is a document with a style requested for each scalar. Collections are written as blocks,
indented by two columns for each level; an empty one is written in brackets. A scalar is written in
the requested style if its characters allow it, and in a more careful one otherwise.
-/

namespace Backtrack.Yaml

inductive Style where
  | plain
  | singleQuoted
  | doubleQuoted
  | literal
  deriving DecidableEq, Repr

inductive Layout where
  | scalar (tag : Option Tag) (style : Style) (value : Bytes)
  | sequence (items : List Layout)
  | mapping (entries : List (Layout × Layout))

def isBreak (c : Char) : Bool :=
  c = '\n' || c = '\r' || c.toNat = 0x85 || c.toNat = 0x2028 || c.toNat = 0x2029

def isGap (c : Char) : Bool := c = ' ' || c = '\t'

def isWritable (c : Char) : Bool :=
  let n := c.toNat
  n = 10 || (32 ≤ n && n ≤ 126) || (0xA0 ≤ n && n < 0xFFFE && n ≠ 0xFEFF)

/-- The characters that mean something at the start of a scalar. -/
def indicators : List Char := "#,[]\x7b\x7d&*!|>'\"%@\x60".toList

def gapNext : List Char → Bool
  | [] => true
  | c :: _ => isGap c

def anyNeighbours (condition : Char → Char → Bool) : List Char → Bool
  | a :: b :: rest => condition a b || anyNeighbours condition (b :: rest)
  | _ => false

/-- Whether the start of a scalar would be taken for something else. -/
def startsBadly : List Char → Bool
  | [] => false
  | cs@(c :: rest) =>
    ['-', '-', '-'].isPrefixOf cs || ['.', '.', '.'].isPrefixOf cs || indicators.contains c
      || ((c = '?' || c = ':' || c = '-') && gapNext rest)

/-- Whether a colon in front of a gap stands behind the start of a scalar. -/
def hasColon : List Char → Bool
  | [] => false
  | c :: rest => (c = ':' && gapNext rest) || hasColon rest

/-- Whether a scalar would be taken for something else than a single text. -/
def isAmbiguous (cs : List Char) : Bool :=
  startsBadly cs || hasColon (cs.drop 1)
    || anyNeighbours (fun a b => b = '#' && (isGap a || isBreak a || a.toNat = 0)) cs

/-- Whether a space stands at either side of a line break. -/
def hasSpaceAtBreak (cs : List Char) : Bool :=
  anyNeighbours (fun a b => (a = ' ' && isBreak b) || (isBreak a && b = ' ')) cs

def hasSpecial (cs : List Char) : Bool := cs.any fun c => c ≠ '\t' && !isWritable c

/-- Whether a scalar can be written without quotes. -/
def plainAllowed (cs : List Char) : Bool :=
  cs.all (fun c => isWritable c && !isBreak c) && cs.head? ≠ some ' ' && cs.getLast? ≠ some ' '
    && !isAmbiguous cs

def singleAllowed (cs : List Char) : Bool :=
  !hasSpaceAtBreak cs && !hasSpecial cs && !cs.contains '\t'

/-- Whether a scalar can be written line by line. -/
def literalAllowed (cs : List Char) : Bool :=
  !cs.isEmpty && cs.getLast? ≠ some ' ' && !hasSpecial cs
    && !anyNeighbours (fun a b => a = ' ' && isBreak b) cs

/-- The style in which a scalar is written, given the one that is requested. A key stands on one
line. -/
def chooseStyle (isKey : Bool) (requested : Style) (cs : List Char) : Style :=
  let careful : Style := if singleAllowed cs then .singleQuoted else .doubleQuoted
  match requested with
  | .plain => if plainAllowed cs && !(isKey && cs.isEmpty) then .plain else careful
  | .singleQuoted => careful
  | .doubleQuoted => .doubleQuoted
  | .literal => if literalAllowed cs && !isKey then .literal else .doubleQuoted

def indentation (n : Nat) : Bytes := List.replicate n 32

def singleQuoted (indent : Nat) (cs : List Char) : Bytes := "'" ++ go false cs ++ "'"
where
  /-- What stands between the quotes. `fresh` says that a line has just begun. -/
  go : (fresh : Bool) → List Char → Bytes
    | _, [] => []
    | fresh, c :: rest =>
      if c = ' ' then 32 :: go fresh rest
      else if isBreak c then
        (if !fresh && c = '\n' then [10] else []) ++ Utf8.encode c ++ go true rest
      else
        (if fresh then indentation indent else [])
          ++ (if c = '\x27' then [39, 39] else Utf8.encode c) ++ go false rest

def letterOf? (c : Char) : Option Char :=
  match c.toNat with
  | 0x00 => some '0'
  | 0x07 => some 'a'
  | 0x08 => some 'b'
  | 0x09 => some 't'
  | 0x0A => some 'n'
  | 0x0B => some 'v'
  | 0x0C => some 'f'
  | 0x0D => some 'r'
  | 0x1B => some 'e'
  | 0x22 => some '\x22'
  | 0x5C => some '\\'
  | 0x85 => some 'N'
  | 0xA0 => some '_'
  | 0x2028 => some 'L'
  | 0x2029 => some 'P'
  | _ => none

def upperHex (width n : Nat) : Bytes :=
  (Bytes.hex width n).map fun b => if 97 ≤ b then b - 32 else b

/-- One character in double quotes. `guarded` says that even a harmless one is escaped. -/
def doubleQuotedChar (guarded : Bool) (c : Char) : Bytes :=
  if !guarded && isWritable c && !isBreak c && c ≠ '\x22' && c ≠ '\\' then Utf8.encode c
  else
    match letterOf? c with
    | some letter => [92, Bytes.ascii letter]
    | none =>
      if c.toNat ≤ 0xFF then "\\x" ++ upperHex 2 c.toNat
      else if c.toNat ≤ 0xFFFF then "\\u" ++ upperHex 4 c.toNat
      else "\\U" ++ upperHex 8 c.toNat

/-- A scalar in double quotes. Behind a byte order mark at its start every character is escaped. -/
def doubleQuoted (cs : List Char) : Bytes :=
  let marked : Bool := cs.head? = some '\uFEFF'
  "\"" ++ cs.flatMap (doubleQuotedChar marked) ++ "\""

/-- What the bar in front of a scalar's lines tells: that the first line starts with a gap, and how
the text ends if not with a single line break. -/
def literalHints (cs : List Char) : Bytes :=
  let start : Bytes :=
    match cs with
    | c :: _ => if c = ' ' || isBreak c then "2" else []
    | [] => []
  let ending : Bytes :=
    match cs.reverse with
    | [] => "-"
    | [c] => if isBreak c then "+" else "-"
    | c :: d :: _ => if !isBreak c then "-" else if isBreak d then "+" else []
  start ++ ending

/-- A scalar line by line. A line break at its start is that of the bar's line. -/
def literal (indent : Nat) (cs : List Char) : Bytes :=
  let opening : Bytes :=
    match cs with
    | c :: _ => if isBreak c then [] else [10]
    | [] => []
  "|" ++ literalHints cs ++ opening ++ go true cs
where
  go : (fresh : Bool) → List Char → Bytes
    | _, [] => []
    | fresh, c :: rest =>
      if isBreak c then Utf8.encode c ++ go true rest
      else (if fresh then indentation indent else []) ++ Utf8.encode c ++ go false rest

def writeScalar (indent : Nat) (isKey : Bool) (tag : Option Tag) (style : Style) (value : Bytes) :
    Bytes :=
  let cs := Utf8.chars value
  let text : Bytes :=
    match chooseStyle isKey style cs with
    | .plain => value
    | .singleQuoted => singleQuoted indent cs
    | .doubleQuoted => doubleQuoted cs
    | .literal => literal indent cs
  match tag with
  | none => text
  | some tag => tag.text ++ " " ++ text

def longestKey : Nat := 128

/-- Whether a key stands in front of a colon, and not behind a question mark. -/
def isSimpleKey : Layout → Bool
  | .scalar _ _ value => value.length ≤ longestKey && !(Utf8.chars value).any isBreak
  | _ => false

/-- Whether a layout starts on the line of the key it belongs to. -/
def Layout.isInline : Layout → Bool
  | .scalar .. | .sequence [] | .mapping [] => true
  | _ => false

def endsLine (text : Bytes) : Bool :=
  let isEnding (ending : Bytes) : Bool := ending.reverse.isPrefixOf text.reverse
  isEnding "\n" || isEnding "\u2028" || isEnding "\u2029"

/-- Goes to an indented line behind a text, which may have ended its line already. -/
def newLine (indent : Nat) (before : Bytes) : Bytes :=
  (if endsLine before then [] else [10]) ++ indentation indent

def joinLines (indent : Nat) : List Bytes → Bytes
  | [] => []
  | [entry] => entry
  | entry :: entries => entry ++ newLine indent entry ++ joinLines indent entries

mutual

def Layout.write (indent : Nat) : Layout → Bytes
  | .scalar tag style value => writeScalar indent false tag style value
  | .sequence [] => "[]"
  | .mapping [] => "\x7b\x7d"
  | .sequence items => joinLines indent (writeItems indent items)
  | .mapping entries => joinLines indent (writeEntries indent entries)

def writeItems (indent : Nat) : List Layout → List Bytes
  | [] => []
  | item :: items => ("- " ++ item.write (indent + 2)) :: writeItems indent items

def writeEntries (indent : Nat) : List (Layout × Layout) → List Bytes
  | [] => []
  | (key, value) :: entries =>
    let written := value.write (indent + 2)
    let entry : Bytes :=
      match key with
      | .scalar tag style text =>
        if isSimpleKey key then
          let gap : Bytes := if value.isInline then " " else newLine (indent + 2) []
          writeScalar (indent + 2) true tag style text ++ ":" ++ gap ++ written
        else
          let question : Bytes := "? " ++ writeScalar (indent + 2) false tag style text
          question ++ newLine indent question ++ ": " ++ written
      | _ => []
    entry :: writeEntries indent entries

end

def Layout.document (l : Layout) : Bytes :=
  let text :=
    match l with
    | .scalar .. => l.write 2
    | _ => l.write 0
  text ++ newLine 0 text

/-- Text in base 64, in lines of seventy characters if there is more than one. -/
def base64Lines (text : Bytes) : Bytes :=
  let encoded := Text.base64 text
  if encoded.length < 70 then encoded else go (encoded.length + 1) encoded
where
  go : (fuel : Nat) → Bytes → Bytes
    | 0, _ => []
    | _, [] => []
    | fuel + 1, t => t.take 70 ++ [10] ++ go fuel (t.drop 70)

/-- The layout of a text: plain if it is taken for a string by all readers, and as binary data if it
is not well-formed. -/
def Layout.ofText (text : Bytes) : Layout :=
  if !Utf8.isValid text then
    let encoded := base64Lines text
    .scalar (some .binary) (if encoded.contains 10 then .literal else .plain) encoded
  else if text.contains 10 then .scalar none .literal text
  else if plainTag text = .str && !isSexagesimal text && !formerBooleans.contains text then
    .scalar none .plain text
  else .scalar none .doubleQuoted text

structure Malformed where
  tag : Tag

def Malformed.message (m : Malformed) : Bytes :=
  "yaml: cannot marshal invalid UTF-8 data as " ++ m.tag.text

/-- The layout of a scalar. A tag is written only if the text would not be taken for what it says,
and a string is quoted instead. -/
def scalarLayout (tag : Tag) (value : Bytes) : Except Malformed Layout :=
  if !Utf8.isValid value then .error ⟨tag⟩
  else
    let isClear := plainTag value = tag
    if !isClear && tag ≠ .str then .ok (.scalar (some tag) .plain value)
    else if value.contains 10 then .ok (.scalar none .literal value)
    else .ok (.scalar none (if isClear then .plain else .doubleQuoted) value)

mutual

def Node.layout : Node → Except Malformed Layout
  | .scalar tag value => scalarLayout tag value
  | .sequence content => return .sequence (← layoutItems content)
  | .mapping content => return .mapping (← layoutEntries content)

def layoutItems : List Node → Except Malformed (List Layout)
  | [] => .ok []
  | node :: nodes => return (← node.layout) :: (← layoutItems nodes)

def layoutEntries : List Node → Except Malformed (List (Layout × Layout))
  | key :: value :: nodes => return (← key.layout, ← value.layout) :: (← layoutEntries nodes)
  | _ => .ok []

end

end Backtrack.Yaml
