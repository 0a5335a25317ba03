import Backtrack.Decimal.Integer
import Backtrack.Dynamic.Value
import Backtrack.Parser.Term

/-!
# Described grammars

A grammar as data: every combinator, with a fixed stock of functions in the places where a
combinator takes one. Building turns a description into a term and can fail, because bounds and
patterns can be wrong. What a match decides is built anew at each match.
-/

namespace Backtrack.Dynamic

inductive CharTest where
  | ascii | even | wide | vowel

def CharTest.holds (c : Char) : CharTest → Bool
  | ascii => c.toNat < 0x80
  | even => c.toNat % 2 = 0
  | wide => 0x10000 ≤ c.toNat
  | vowel => "aeiou".toList.contains c

inductive Mapper where
  | text | length | swap | wrap

def Mapper.apply (v : Value) : Mapper → Value
  | text => .text v.flat
  | length =>
    match v with
    | .list elements => .int elements.length
    | _ => .int v.flat.length
  | swap =>
    match v with
    | .pair left right => .pair right left
    | _ => v
  | wrap => .list [v]

inductive Checker where
  | integer | reject | rejectPlain | rejectNested | rejectElsewhere | atLeastThree

def elsewhere : Input := Input.ofBytes "other.txt" "one\ntwo"

def Checker.apply (v : Value) : Checker → Except Error Value
  | integer =>
    match Decimal.readInt v.flat with
    | .ok i => .ok (.int i)
    | .error d => .error (.plain (Decimal.failure "Atoi" v.flat d))
  | reject => .error { message := "rejected " ++ v.flat : ParseError }
  | rejectPlain => .error (.plain ("plain " ++ v.flat))
  | rejectNested => .error (.wrapped "outer" { message := "inner " ++ v.flat : ParseError })
  | rejectElsewhere =>
    .error { message := "elsewhere", offset := 5, input := elsewhere : ParseError }
  | atLeastThree => if v.flat.length < 3 then .error (.plain "too short") else .ok v

inductive Test where
  | equal (text : Bytes) | different (text : Bytes) | atLeast (length : Int)

def Test.holds (v : Value) : Test → Bool
  | equal text => v.flat = text
  | different text => v.flat ≠ text
  | atLeast length => length ≤ v.flat.length

inductive Diagnosis where
  | nothing | near | plain (text : Bytes) | fixed (text : Bytes) (offset : Int)
  | wrapped (text : Bytes) | nested (text : Bytes)

def Diagnosis.diagnostic : Diagnosis → Diagnostic
  | nothing => fun _ _ => .ok none
  | near => fun input offset => do
    let found ← input.near offset
    return some { message := "unexpected " ++ found : ParseError }
  | plain text => fun _ _ => .ok (some (.plain text))
  | fixed text place => fun input _ => do
    return some (← input.annotate place (some (.plain text)))
  | wrapped text => fun input offset =>
    .ok (some (input.wrap offset (text ++ " at " ++ Bytes.ofInt offset) (.plain "cause")))
  | nested text => fun _ _ => .ok (some (.wrapped "outer" { message := text : ParseError }))

inductive Description where
  | matching (test : CharTest)
  | char (code : Int)
  | anyChar
  | range (a b : Int)
  | charIn (set : Bytes)
  | charNotIn (set : Bytes)
  | space
  | digit
  | letter
  | literal (text : Bytes)
  | literals (texts : List Bytes)
  | pattern (source : Bytes)
  | atEnd
  | always (v : Value)
  | never
  | and (p q : Description)
  | sequence (ps : List Description)
  | map (f : Mapper) (p : Description)
  | mapErr (f : Checker) (p : Description)
  | value (v : Value) (p : Description)
  | filter (test : Test) (p : Description)
  | flatMap (p next : Description)
  | skipLeft (p q : Description)
  | skipRight (p q : Description)
  | surround (p opening closing : Description)
  | trim (p : Description)
  | or (p q : Description)
  | oneOf (ps : List Description)
  | repeated (p : Description) (least most : Int)
  | many0 (p : Description)
  | many1 (p : Description)
  | sepBy0 (p separator : Description)
  | sepBy1 (p separator : Description)
  | optional (p : Description) (default : Value)
  | lookahead (p : Description)
  | not (p : Description)
  | notFollowedBy (p test : Description)
  | commit (p : Description) (diagnosis : Diagnosis)
  | expected (p : Description) (message : Bytes)
  | named (name : Bytes) (p : Description)
  | ref (name : Bytes)
  | deferred (p : Description)
  /-- The text that the innermost match around decided. -/
  | bound
  | boundCount (p : Description)
  | boundExpected (p : Description) (before behind : Bytes)

abbrev types : Bytes → Type := fun _ => Value

abbrev ValueTerm := Term types Value

/-- A term that was built when it is called: if the building fails, the call breaks down. -/
def late (built : Except Fault ValueTerm) : ValueTerm :=
  match built with
  | .ok t => t
  | .error f => .fault f

def repeatedTerm (bounds : Bounds) (p : ValueTerm) : ValueTerm := (Term.repeated bounds p).map .list

/-- Repeated matches within bounds given as integers. A value is held in sixteen bytes. -/
def repeatedWithin (least most : Int) (p : ValueTerm) : Except Fault ValueTerm :=
  match Bounds.ofInts least most (Bounds.roomFor 16) with
  | .ok bounds => .ok (repeatedTerm bounds p)
  | .error f => .error f

namespace Description

mutual

def build (decided : Bytes) : Description → Except Fault ValueTerm
  | matching test => .ok ((Term.satisfy test.holds).map .char)
  | char code => .ok ((Term.satisfy fun c => decide ((c.toNat : Int) = code)).map .char)
  | anyChar => .ok (Term.anyChar.map .char)
  | range a b => .ok ((Term.codeBetween a b).map .char)
  | charIn set => .ok ((Term.charIn set).map .char)
  | charNotIn set => .ok ((Term.charNotIn set).map .char)
  | space => .ok (Term.space.map .char)
  | digit => .ok (Term.digit.map .char)
  | letter => .ok (Term.letter.map .char)
  | literal text => .ok ((Term.literal text).map .text)
  | literals texts => .ok ((Term.literals texts).map .text)
  | pattern source => do return (← Term.ofPattern source).map .text
  | atEnd => .ok (Term.atEnd.map fun _ => .unit)
  | always v => .ok (.always v)
  | never => .ok .never
  | and p q => do
    let p ← p.build decided
    let q ← q.build decided
    return (p.and q).map fun (a, b) => .pair a b
  | sequence ps => do return (Term.sequenceOf (← buildAll decided ps)).map .list
  | map f p => do return (← p.build decided).map fun v => f.apply v
  | mapErr f p => do return (← p.build decided).mapErr fun v => f.apply v
  | value v p => do return (← p.build decided).value v
  | filter test p => do return (← p.build decided).filter fun v => test.holds v
  | flatMap p next => do
    let p ← p.build decided
    return (p.flatMap fun v => late (next.build v.flat)).map fun (a, b) => .pair a b
  | skipLeft p q => do
    let p ← p.build decided
    return p.skipLeft (← q.build decided)
  | skipRight p q => do
    let p ← p.build decided
    return p.skipRight (← q.build decided)
  | surround p opening closing => do
    let p ← p.build decided
    let opening ← opening.build decided
    return p.surround opening (← closing.build decided)
  | trim p => do return (← p.build decided).trim
  | or p q => do
    let p ← p.build decided
    return p.or (← q.build decided)
  | oneOf ps => do return Term.choice (← buildAll decided ps)
  | repeated p least most => do repeatedWithin least most (← p.build decided)
  | many0 p => do return repeatedTerm .any (← p.build decided)
  | many1 p => do return repeatedTerm .some (← p.build decided)
  | sepBy0 p separator => do
    let p ← p.build decided
    return (p.sepBy0 (← separator.build decided)).map .list
  | sepBy1 p separator => do
    let p ← p.build decided
    return (p.sepBy1 (← separator.build decided)).map .list
  | optional p default => do return (← p.build decided).optional default
  | lookahead p => do return (← p.build decided).lookahead
  | not p => do return (← p.build decided).not.map fun _ => .unit
  | notFollowedBy p test => do
    let p ← p.build decided
    return p.notFollowedBy (← test.build decided)
  | commit p diagnosis => do return (← p.build decided).commit diagnosis.diagnostic
  | expected p message => do return (← p.build decided).expected message
  | named name p => do return (← p.build decided).named name
  | ref name => .ok (.ref name)
  | deferred p => .ok (late (p.build decided))
  | bound => .ok ((Term.literal decided).map .text)
  | boundCount p => do
    repeatedWithin (Decimal.clampInt decided) (Decimal.clampInt decided) (← p.build decided)
  | boundExpected p before behind => do
    return (← p.build decided).expected (before ++ decided ++ behind)

def buildAll (decided : Bytes) : List Description → Except Fault (List ValueTerm)
  | [] => .ok []
  | p :: ps => do
    let t ← p.build decided
    return t :: (← buildAll decided ps)

end

end Description

structure Grammar where
  definitions : List (Bytes × ValueTerm)
  start : ValueTerm

def Grammar.build (definitions : List (Bytes × Description)) (start : Description) :
    Except Fault Grammar := do
  let built ← definitions.mapM fun (name, d) => do return (name, ← d.build [])
  return ⟨built, ← start.build []⟩

def Grammar.parser (g : Grammar) : Parser Value :=
  let definitions : Definitions types := fun name => g.definitions.lookup name
  definitions.parser g.definitions.length g.start

end Backtrack.Dynamic
