import Backtrack.Calendar
import Backtrack.Decimal.Numeral
import Backtrack.Yaml.Node

/-!
# Plain scalars

What a text means when it stands without quotes. A text that would not be taken for a string has to
be quoted when it is meant as one.
-/

namespace Backtrack.Yaml

def fitsInt (negative : Bool) (n : Nat) : Bool :=
  n < Nat.pow 2 63 || (negative && n = Nat.pow 2 63)

/-- Whether digits with an optional sign denote an integer of 64 bits in a base; without a sign it
may be as large as 64 bits allow. -/
def isIntegerIn (base : Nat) (text : Bytes) : Bool :=
  let (negative, digits) := Decimal.splitSign text
  match Bytes.numberIn? base digits with
  | none => false
  | some n => fitsInt negative n || (digits.length = text.length && n < Nat.pow 2 64)

/-- The base that the first characters of a number tell, and its digits. -/
def baseOf : Bytes → Nat × Bytes
  | 48 :: b :: digits =>
    if b = Bytes.ascii 'x' || b = Bytes.ascii 'X' then (16, digits)
    else if b = Bytes.ascii 'o' || b = Bytes.ascii 'O' then (8, digits)
    else if b = Bytes.ascii 'b' || b = Bytes.ascii 'B' then (2, digits)
    else (8, b :: digits)
  | digits => (10, digits)

/-- Whether a text is an integer, whose base is told by its first characters. A sign may also stand
behind a mark for base two or eight. -/
def isInteger (text : Bytes) : Bool :=
  let (negative, digits) := Decimal.splitSign text
  let unsigned := digits.length = text.length
  let (base, inner) := baseOf digits
  let usual :=
    match Bytes.numberIn? base inner with
    | none => false
    | some n => fitsInt negative n || (unsigned && n < Nat.pow 2 64)
  let marked (mark : Bytes) (base : Nat) : Bool :=
    match Bytes.dropStart? mark text with
    | some rest => isIntegerIn base rest
    | none => false
  usual || marked "0b" 2 || marked "0o" 8

def isFraction (text : Bytes) : Bool := (Decimal.readFloat text).isOk

/-- Whether a text is a point in time: a date, perhaps with a time of day. With the letter T between
them there is a time zone; with spaces there is none. -/
def isTimestamp (text : Bytes) : Bool :=
  (text.takeWhile Bytes.isDigit).length = 4 &&
    match Calendar.date? text with
    | none => false
    | some [] => true
    | some (b :: rest) =>
      if b = Bytes.ascii 'T' || b = Bytes.ascii 't' then
        ((Calendar.clock? rest).map Calendar.isZone).getD false
      else if b = 32 then Calendar.clock? (rest.dropWhile (· = 32)) = some []
      else false

def words : List (Bytes × Tag) :=
  let of (tag : Tag) (texts : List Bytes) : List (Bytes × Tag) := texts.map fun t => (t, tag)
  of .bool ["true", "True", "TRUE", "false", "False", "FALSE"]
    ++ of .null ["", "~", "null", "Null", "NULL"]
    ++ of .float [".nan", ".NaN", ".NAN", ".inf", ".Inf", ".INF", "+.inf", "+.Inf", "+.INF",
      "-.inf", "-.Inf", "-.INF"]

/-- The meaning of a text that starts with a digit or a sign. Low lines between digits do not
count. -/
def numberTag (text : Bytes) : Tag :=
  let digits := text.filter (· ≠ 95)
  if isTimestamp text then .timestamp
  else if isInteger digits then .int
  else if isFraction digits then .float
  else .str

def plainTag (text : Bytes) : Tag :=
  match words.lookup text, text with
  | some tag, _ => tag
  | none, b :: _ =>
    if b = 46 then (if isFraction text then .float else .str)
    else if b = 43 || b = 45 || Bytes.isDigit b then numberTag text
    else .str
  | none, [] => .str

/-- Words that were truth values in earlier versions of the format. -/
def formerBooleans : List Bytes :=
  ["y", "Y", "yes", "Yes", "YES", "on", "On", "ON", "n", "N", "no", "No", "NO", "off", "Off", "OFF"]

/-- Whether digits are a number below sixty, with one digit or two. -/
def isSixtieth (digits : Bytes) : Bool :=
  match digits with
  | [a] => Bytes.isDigit a
  | [a, b] => 48 ≤ a && a ≤ 53 && Bytes.isDigit b
  | _ => false

/-- Whether a text was a number in base sixty in earlier versions of the format, such as `1:30`. -/
def isSexagesimal (text : Bytes) : Bool :=
  let (_, rest) := Decimal.splitSign text
  let isPart (b : UInt8) : Bool := Bytes.isDigit b || b = 95
  match Bytes.splitOn 58 rest with
  | [] | [_] => false
  | first :: others =>
    let last := others.getLast?.getD []
    let whole := last.takeWhile (· ≠ 46)
    let behind := (last.dropWhile (· ≠ 46)).drop 1
    (first.head?.map Bytes.isDigit).getD false && first.all isPart
      && others.dropLast.all isSixtieth && isSixtieth whole && behind.all isPart

end Backtrack.Yaml
