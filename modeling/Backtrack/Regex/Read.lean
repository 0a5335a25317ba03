import Backtrack.Regex.Factor

/-!
# Reading patterns

A pattern is read from left to right. What is open at a place is a list of groups, each with the
alternatives and the items read so far, so that a defect is reported where the reading stops.
-/

namespace Backtrack.Regex

structure Flags where
  ignoreCase : Bool := false
  multiline : Bool := false
  dotAll : Bool := false
  /-- Repetitions are lazy, and greedy with a question mark. -/
  lazy : Bool := false
  deriving DecidableEq, Repr

/-- A group that is being read: the alternatives and the items of the current one, both latest
first, and the options to restore at its end. -/
structure Group where
  outer : Flags
  captures : Bool := false
  branches : List Tree := []
  items : List Tree := []

def joinsLiterals : List Tree → Bool
  | .literal f _ :: .literal g _ :: _ => f = g
  | _ => false

/-- Joins the last two items if they are literals. The last one of all stays alone as long as a
repetition can follow, so this is done before the next item is added. -/
def joinLiterals : List Tree → List Tree
  | .literal f cs :: .literal g ds :: rest =>
    if f = g then .literal f (ds ++ cs) :: rest else .literal f cs :: .literal g ds :: rest
  | items => items

namespace Group

def push (g : Group) (t : Tree) : Building Group := do
  if joinsLiterals g.items then Budget.release 1
  Budget.enter t
  return { g with items := t :: joinLiterals g.items }

/-- Adds a class. A class of one character is as good as the character, and so is a class of two
that differ in case. -/
def pushClass (g : Group) (c : CharClass) : Building Group := do
  Budget.make
  let single (ignoreCase : Bool) (n : Nat) : Building Group := do
    Budget.enter (.literal ignoreCase [n])
    return { g with items := .literal ignoreCase [n] :: joinLiterals g.items }
  match c.fewMembers?.map fun ns => ns.eraseDups.mergeSort with
  | some [n] => single false n
  | some [m, n] =>
    if (Text.foldOrbit m).mergeSort = [m, n] then single true m else g.push (.chars c)
  | _ => g.push (.chars c)

def join (g : Group) : Building Tree := do
  if joinsLiterals g.items then Budget.release 1
  let t ← Tree.joined (joinLiterals g.items).reverse
  Budget.enter t
  return t

/-- The alternatives with one more. Two characters in a row become one class. -/
def addBranch (branches : List Tree) (t : Tree) : Building (List Tree) := do
  match branches with
  | [] => return [t]
  | u :: us =>
    match u, t with
    | .literal f [m], .literal g [n] =>
      Budget.release 1
      let both : CharClass := .union (Tree.codeClass f m) (Tree.codeClass g n)
      return (if f = g && m = n then u else .chars both) :: us
    | u, t =>
      match u.class?, t.class? with
      | some c, some d => do
        Budget.release 1
        return .chars (.union c d) :: us
      | _, _ => return t :: u :: us

def nextBranch (g : Group) : Building Group := do
  let t ← g.join
  if g.branches.isEmpty then
    Budget.make
    Budget.check .empty
  return { g with branches := ← addBranch g.branches t, items := [] }

def close (g : Group) : Building Tree := do
  let t ← g.join
  let branches ← addBranch g.branches t
  let t ← Tree.alternatives (2 * Tree.sizeOfAll branches + 2) branches.reverse
  Budget.enter t
  return t

end Group

structure State where
  flags : Flags := {}
  top : Group := { outer := {} }
  around : List Group := []
  /-- The rest of the pattern from the repetition that was just read, if one was. -/
  lastRepeat : Option Bytes := none

namespace State

def push (st : State) (t : Tree) : Building State := do
  Budget.make
  return { st with top := ← st.top.push t }

def pushClass (st : State) (c : CharClass) : Building State := do
  return { st with top := ← st.top.pushClass c }

def pushCode (st : State) (n : Nat) : Building State :=
  let fold := st.flags.ignoreCase
  st.push (.literal fold [if fold then (Text.foldOrbit n).foldl min n else n])

def openGroup (st : State) (captures : Bool) (inside : Flags) : Building State := do
  Budget.make
  if joinsLiterals st.top.items then Budget.release 1
  Budget.check .empty
  let outer := { st.top with items := joinLiterals st.top.items }
  let top : Group := { outer := st.flags, captures }
  return { st with flags := inside, top, around := outer :: st.around }

def nextBranch (st : State) : Building State := do return { st with top := ← st.top.nextBranch }

def closeGroup (st : State) : Building State := do
  let t ← st.top.close
  match st.around with
  | [] => throw ⟨.unexpectedParen, (← get).pattern⟩
  | outer :: around =>
    let outer ← outer.push (if st.top.captures then .capture t else t)
    return { st with flags := st.top.outer, top := outer, around := around }

end State

/-- The bounds of a repetition in braces, without leading zeros. A number too large to hold is
`none`. -/
def readCount? (t : Bytes) : Option (Option Nat × Bytes) :=
  let digits := t.takeWhile Bytes.isDigit
  let rest := t.dropWhile Bytes.isDigit
  if digits.isEmpty then none
  else if 2 ≤ digits.length && digits.head? = some 48 then none
  else some (if 9 < digits.length then none else some (Bytes.digitsValue digits), rest)

/-- The bounds in braces at the start of `t`: least, most, and what is left. The outer `none` says
that the brace is literal, an inner one that the bounds are out of range. -/
def readBounds? (t : Bytes) : Option (Option (Nat × Option Nat) × Bytes) := do
  let (least, rest) ← readCount? (t.drop 1)
  match rest with
  | 125 :: left => some (least.map fun n => (n, some n), left)
  | 44 :: 125 :: left => some (least.map fun n => (n, none), left)
  | 44 :: rest =>
    let (most, rest) ← readCount? rest
    match rest with
    | 125 :: left => some (least.bind fun n => most.map fun m => (n, some m), left)
    | _ => none
  | _ => none

/-- The most that the bounds of a repetition, and nested ones together, may ask for. -/
def countLimit : Nat := 1000

/-- Applies a repetition to the last item. `before` starts at the operator and `after` behind it. -/
def repeatLast (st : State) (q : Quantifier) (before after : Bytes) : Building (State × Bytes) := do
  let isMarked := after.head? = some (Bytes.ascii '?')
  let after := if isMarked then after.drop 1 else after
  if let some last := st.lastRepeat then throw ⟨.invalidRepeatOp, consumed last after⟩
  match st.top.items with
  | [] => throw ⟨.missingRepeatArgument, consumed before after⟩
  | item :: items =>
    let repeated := Tree.repeated q (st.flags.lazy == isMarked) item
    Budget.make
    Budget.check repeated
    let isLarge :=
      match q with
      | .count least most => 2 ≤ least || 2 ≤ most.getD 0
      | _ => false
    if isLarge && !repeated.countsWithin countLimit then
      throw ⟨.invalidRepeatSize, consumed before after⟩
    let top := { st.top with items := repeated :: items }
    return ({ st with top, lastRepeat := some before }, after)

def isGroupName (name : Bytes) : Bool :=
  !name.isEmpty && name.all fun b => Bytes.isLetter b || Bytes.isDigit b || b = Bytes.ascii '_'

/-- A named group: `s` is the rest of the pattern from its parenthesis, `t` starts with the name. -/
def openNamed (st : State) (s t : Bytes) : Building (State × Bytes) :=
  match Bytes.cut? ">" t with
  | none => do
    checkUtf8 0 s
    throw ⟨.invalidNamedCapture, s⟩
  | some (name, rest) => do
    checkUtf8 0 name
    if isGroupName name then return (← st.openGroup true st.flags, rest)
    throw ⟨.invalidNamedCapture, consumed s rest⟩

/-- The options of a group that starts with `(?`, and then a colon that opens the group or a
parenthesis that ends the list. `on` says whether the options read are switched on, `seen` whether
any was read since. `fuel` bounds their number. -/
def readFlags (st : State) (s : Bytes) :
    (fuel : Nat) → (flags : Flags) → (on seen : Bool) → Bytes → Building (State × Bytes)
  | 0, _, _, _, t => throw ⟨.invalidPerlOp, consumed s t⟩
  | _, _, _, _, [] => throw ⟨.invalidPerlOp, s⟩
  | fuel + 1, flags, on, seen, t => do
    let (c, rest) ← nextChar t
    let invalid : Building (State × Bytes) := throw ⟨.invalidPerlOp, consumed s rest⟩
    match c with
    | 'i' => readFlags st s fuel { flags with ignoreCase := on } on true rest
    | 'm' => readFlags st s fuel { flags with multiline := on } on true rest
    | 's' => readFlags st s fuel { flags with dotAll := on } on true rest
    | 'U' => readFlags st s fuel { flags with lazy := on } on true rest
    | '-' => if on then readFlags st s fuel flags false false rest else invalid
    | ':' => if !on && !seen then invalid else return (← st.openGroup false flags, rest)
    | ')' => if !on && !seen then invalid else return ({ st with flags := flags }, rest)
    | _ => invalid

def openSpecial (st : State) (s : Bytes) : Building (State × Bytes) :=
  match s.drop 2 with
  | 80 :: 60 :: b :: t => openNamed st s (b :: t)
  | 60 :: b :: t => openNamed st s (b :: t)
  | t => readFlags st s s.length st.flags true false t

/-- Literal text between `\Q` and `\E`. `skip` bytes belong to the character before. -/
def pushLiteral : (skip : Nat) → State → Bytes → Building State
  | _, st, [] => return st
  | skip + 1, st, _ :: rest => pushLiteral skip st rest
  | 0, st, b :: rest => do
    let (c, left) ← nextChar (b :: rest)
    pushLiteral (rest.length - left.length) (← st.pushCode c.toNat) rest

def readBackslash (st : State) (t : Bytes) : Building (State × Bytes) := do
  let rest := t.drop 2
  let class? : Reading (Option (CharClass × Bytes)) := do
    if let some found ← readProperty? st.flags.ignoreCase t then return some found
    return readShortClass? st.flags.ignoreCase t
  match (t.drop 1).head? with
  | some 65 => return (← st.push (.check .beginText), rest)
  | some 98 => return (← st.push (.check .wordBoundary), rest)
  | some 66 => return (← st.push (.check .noWordBoundary), rest)
  | some 67 => throw ⟨.invalidEscape, t.take 2⟩
  | some 81 =>
    let (literal, left) := (Bytes.cut? "\\E" rest).getD (rest, [])
    return (← pushLiteral 0 st literal, left)
  | some 122 => return (← st.push (.check .endText), rest)
  | _ =>
    match ← class? with
    | some (c, left) => return (← st.pushClass c, left)
    | none =>
      let (n, left) ← readEscape t
      return (← st.pushCode n, left)

def readItem (st : State) (t : Bytes) : Building (State × Bytes) := do
  let rest := t.drop 1
  match t.head? with
  | some 40 =>
    if rest.head? = some (Bytes.ascii '?') then openSpecial st t
    else return (← st.openGroup true st.flags, rest)
  | some 124 => return (← st.nextBranch, rest)
  | some 41 => return (← st.closeGroup, rest)
  | some 94 =>
    return (← st.push (.check (if st.flags.multiline then .beginLine else .beginText)), rest)
  | some 36 => return (← st.push (.check (if st.flags.multiline then .endLine else .endText)), rest)
  | some 46 => return (← st.push (.chars (if st.flags.dotAll then .any else .notNewline)), rest)
  | some 91 =>
    let (c, left) ← readClass st.flags.ignoreCase t
    return (← st.pushClass c, left)
  | some 92 => readBackslash st t
  | _ =>
    let (c, left) ← nextChar t
    return (← st.pushCode c.toNat, left)

/-- Reads a repetition operator at the start of `t`, or else an item. -/
def readStep (st : State) (t : Bytes) : Building (State × Bytes) := do
  let rest := t.drop 1
  let plain : Building (State × Bytes) := do
    let (st, left) ← readItem { st with lastRepeat := none } t
    return ({ st with lastRepeat := none }, left)
  match t.head? with
  | some 42 => repeatLast st .star t rest
  | some 43 => repeatLast st .plus t rest
  | some 63 => repeatLast st .opt t rest
  | some 123 =>
    match readBounds? t with
    | none => return ({ ← st.pushCode 123 with lastRepeat := none }, rest)
    | some (bounds, after) =>
      let invalid : Building (State × Bytes) := throw ⟨.invalidRepeatSize, consumed t after⟩
      match bounds with
      | none => invalid
      | some (least, most) =>
        if countLimit < least || countLimit < most.getD 0 || most.getD least < least then invalid
        else repeatLast st (.count least most) t after
  | _ => plain

/-- Reads the rest of a pattern. Every step consumes something, so `fuel` is never used up. -/
def readAll : (fuel : Nat) → State → Bytes → Building State
  | 0, st, _ => return st
  | _, st, [] => return st
  | fuel + 1, st, t => do
    let (st, rest) ← readStep st t
    readAll fuel st rest

def readTree (pattern : Bytes) : Building Tree := do
  let st ← readAll pattern.length {} pattern
  let t ← st.top.close
  match st.around with
  | [] => return t
  | _ => throw ⟨.missingParen, pattern⟩

def read (pattern : Bytes) : Reading Regex := do
  let (t, _) ← (readTree pattern).run { pattern }
  return t.regex

/-- The pattern that matches where the given one does, but only at the start of the text. The
pattern is put into a group textually. -/
def anchoredSource (pattern : Bytes) : Bytes := "^(?:" ++ pattern ++ ")"

def readAnchored (pattern : Bytes) : Reading Regex := read (anchoredSource pattern)

end Backtrack.Regex
