import Backtrack.Text.Bytes

/-!
# Durations

A duration is a number of nanoseconds. It is read from numbers with units, such as `1h30m` or
`1.5s`, and written in hours, minutes and seconds, or in a smaller unit if it is less than a second.
-/

namespace Backtrack

structure Duration where
  nanoseconds : Int
  deriving DecidableEq, Repr

namespace Duration

def zero : Duration := ⟨0⟩

/-- The units and their lengths in nanoseconds. Microseconds have three spellings. -/
def units : List (Bytes × Nat) :=
  [("ns", 1), ("us", 1000), ("µs", 1000), ("μs", 1000), ("ms", 1000000), ("s", 1000000000),
    ("m", 60000000000), ("h", 3600000000000)]

inductive Defect where
  | malformed
  | missingUnit
  | unknownUnit (unit : Bytes)

/-- How messages show a text: bytes outside of ASCII and control characters as numbers. -/
def shown (text : Bytes) : Bytes :=
  let item (b : UInt8) : Bytes :=
    if 128 ≤ b || b < 32 then "\\x" ++ Bytes.hex 2 b.toNat
    else if b = Bytes.ascii '\x22' || b = Bytes.ascii '\\' then [Bytes.ascii '\\', b]
    else [b]
  "\"" ++ text.flatMap item ++ "\""

def Defect.message (text : Bytes) : Defect → Bytes
  | malformed => "time: invalid duration " ++ shown text
  | missingUnit => "time: missing unit in duration " ++ shown text
  | unknownUnit unit => "time: unknown unit " ++ shown unit ++ " in duration " ++ shown text

def limit : Nat := Nat.pow 2 63

/-- The digits behind a point: their value and the power of ten to divide it by. Digits past the
eighteenth or so are dropped. -/
def fraction (digits : Bytes) : Nat × Nat := go 0 1 digits
where
  go : (value scale : Nat) → Bytes → Nat × Nat
    | value, scale, [] => (value, scale)
    | value, scale, b :: rest =>
      let next := 10 * value + (b.toNat - 48)
      if (limit - 1) / 10 < value || limit < next then (value, scale)
      else go next (10 * scale) rest

def fractionOf (value scale unit : Nat) : Nat :=
  (Float.ofNat value * (Float.ofNat unit / Float.ofNat scale)).toUInt64.toNat

def readPart (text : Bytes) : Except Defect (Nat × Bytes) :=
  let whole := text.takeWhile Bytes.isDigit
  let rest := text.dropWhile Bytes.isDigit
  let (part, rest) :=
    match rest with
    | 46 :: rest => (rest.takeWhile Bytes.isDigit, rest.dropWhile Bytes.isDigit)
    | _ => ([], rest)
  let isUnit (b : UInt8) : Bool := !(b = 46 || Bytes.isDigit b)
  let unit := rest.takeWhile isUnit
  let count := Bytes.digitsValue whole
  if whole.isEmpty && part.isEmpty || limit < count then .error .malformed
  else if unit.isEmpty then .error .missingUnit
  else
    match units.lookup unit with
    | none => .error (.unknownUnit unit)
    | some length =>
      let (value, scale) := fraction part
      let total := count * length + (if 0 < value then fractionOf value scale length else 0)
      if limit / length < count || limit < total then .error .malformed
      else .ok (total, rest.dropWhile isUnit)

/-- The sum of some numbers with units, at most `fuel` of them. It is a word of 64 bits, so that
twice the limit is nothing. -/
def readParts : (fuel total : Nat) → Bytes → Except Defect Nat
  | _, total, [] => .ok total
  | 0, _, _ => .error .malformed
  | fuel + 1, total, text =>
    match readPart text with
    | .error d => .error d
    | .ok (length, rest) =>
      let sum := (total + length) % (2 * limit)
      if limit < sum then .error .malformed else readParts fuel sum rest

def read (text : Bytes) : Except Defect Duration :=
  let (negative, rest) :=
    match text with
    | 43 :: rest => (false, rest)
    | 45 :: rest => (true, rest)
    | _ => (false, text)
  if rest = [48] then .ok zero
  else if rest.isEmpty then .error .malformed
  else
    match readParts rest.length 0 rest with
    | .error d => .error d
    | .ok total =>
      if negative then .ok ⟨-total⟩
      else if limit ≤ total then .error .malformed
      else .ok ⟨total⟩

/-- A number divided by a power of ten, without trailing zeros. -/
def scaled (n places : Nat) : Bytes :=
  let part := n % Nat.pow 10 places
  let digits := (List.range places).reverse.map fun i => (48 + part / Nat.pow 10 i % 10).toUInt8
  let digits := (digits.reverse.dropWhile (· = 48)).reverse
  let behind : Bytes := if digits.isEmpty then [] else "." ++ digits
  Bytes.ofNat (n / Nat.pow 10 places) ++ behind

def magnitude (n : Nat) : Bytes :=
  if n = 0 then "0s"
  else if n < 1000 then scaled n 0 ++ "ns"
  else if n < 1000000 then scaled n 3 ++ "µs"
  else if n < 1000000000 then scaled n 6 ++ "ms"
  else
    let minutes := n / 60000000000
    let seconds : Bytes := scaled (n % 60000000000) 9 ++ "s"
    if minutes = 0 then seconds
    else if minutes < 60 then Bytes.ofNat minutes ++ "m" ++ seconds
    else Bytes.ofNat (minutes / 60) ++ "h" ++ Bytes.ofNat (minutes % 60) ++ "m" ++ seconds

def text (d : Duration) : Bytes :=
  let size := magnitude d.nanoseconds.natAbs
  if d.nanoseconds < 0 then "-" ++ size else size

end Duration

end Backtrack
