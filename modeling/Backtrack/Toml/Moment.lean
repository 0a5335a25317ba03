import Backtrack.Calendar

/-!
# Points in time in TOML

A date, a time of day, or both, perhaps with a time zone. What is left out is filled in: midnight
for the time of day and the first day of the year zero for the date.
-/

namespace Backtrack.Toml

inductive Zone where
  | ahead (minutes : Int)
  /-- None is given: universal time under another name. -/
  | unstated (name : Bytes)
  deriving Repr

structure Moment where
  date : Bytes
  clock : Bytes
  fraction : Bytes
  zone : Zone
  deriving Repr

def isDate (text : Bytes) : Bool :=
  text.length = 10 && (text.takeWhile Bytes.isDigit).length = 4 && Calendar.date? text = some []

/-- Whether a text is a time of day without a fraction. -/
def isClock : Bytes → Bool
  | [a, b, 58, c, d, 58, e, f] =>
    let inRange (x y : UInt8) (limit : Nat) : Bool :=
      Bytes.isDigit x && Bytes.isDigit y && Bytes.digitsValue [x, y] < limit
    inRange a b 24 && inRange c d 60 && inRange e f 60
  | _ => false

/-- The digits behind a point, if there is one, and the rest. A point without digits is refused. -/
def fraction? : Bytes → Option (Bytes × Bytes)
  | 46 :: rest =>
    match rest.takeWhile Bytes.isDigit with
    | [] => none
    | digits => some (digits, rest.dropWhile Bytes.isDigit)
  | rest => some ([], rest)

/-- The nine digits of a fraction that are kept, without zeros at the end. -/
def significant (digits : Bytes) : Bytes :=
  ((digits.take 9).reverse.dropWhile (· = 48)).reverse

def zone? (name : Bytes) : Bytes → Option Zone
  | [] => some (.unstated name)
  | [122] => some (.ahead 0)
  | text =>
    if !Calendar.isZone text then none
    else
      let minutes : Int :=
        60 * Bytes.digitsValue ((text.drop 1).take 2) + Bytes.digitsValue (text.drop 4)
      some (.ahead (if text = [90] then 0 else if text.head? = some 45 then -minutes else minutes))

def onDate? (date : Bytes) (name : Bytes) (text : Bytes) : Option Moment := do
  let clock := text.take 8
  if !isClock clock then none
  else
    let (digits, rest) ← fraction? (text.drop 8)
    return ⟨date, clock, significant digits, ← zone? name rest⟩

/-- A date, a time of day, or both. Only both together can have a time zone. -/
def moment? (text : Bytes) : Option Moment :=
  if isDate text then some ⟨text, "00:00:00", [], .unstated "date-local"⟩
  else if isDate (text.take 10) then
    match text.drop 10 with
    | b :: rest =>
      if b = 84 || b = 116 || b = 32 then onDate? (text.take 10) "datetime-local" rest else none
    | [] => none
  else
    match onDate? "0000-01-01" "time-local" text with
    | some ⟨date, clock, fraction, .unstated name⟩ => some ⟨date, clock, fraction, .unstated name⟩
    | _ => none

def offsetText (between : Bytes) (minutes : Int) : Bytes :=
  let two (n : Nat) : Bytes := if n < 10 then 48 :: Bytes.ofNat n else Bytes.ofNat n
  let sign : Bytes := if minutes < 0 then "-" else "+"
  sign ++ two (minutes.natAbs / 60) ++ between ++ two (minutes.natAbs % 60)

namespace Moment

def clockText (m : Moment) : Bytes :=
  if m.fraction.isEmpty then m.clock else m.clock ++ "." ++ m.fraction

/-- A point in time as it is exchanged between programs. -/
def text (m : Moment) : Bytes :=
  let zone : Bytes :=
    match m.zone with
    | .unstated _ | .ahead 0 => "Z"
    | .ahead minutes => offsetText ":" minutes
  m.date ++ "T" ++ m.clockText ++ zone

/-- A point in time as it is shown to people, with the name of its zone. -/
def shown (m : Moment) : Bytes :=
  let zone : Bytes :=
    match m.zone with
    | .unstated name => "+0000 " ++ name
    | .ahead 0 => "+0000 UTC"
    | .ahead minutes => offsetText [] minutes ++ " " ++ offsetText [] minutes
  m.date ++ " " ++ m.clockText ++ " " ++ zone

end Moment

end Backtrack.Toml
