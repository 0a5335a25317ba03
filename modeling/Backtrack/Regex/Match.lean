import Std.Data.HashSet
import Backtrack.Regex.Basic
import Backtrack.Text.Utf8

/-!
# Matching regular expressions

`Regex.ends` lists the places where a match that starts at a given place can end, the preferred one
first: of two alternatives the first is preferred, a greedy repetition prefers to go on and a lazy
one to stop. No place is listed twice, so the work stays polynomial.

A repetition whose body may match nothing needs care: a choice that comes up again at the same
place, while its first option is still being followed, leads nowhere new. `Regex.arrivals` remembers
the choices made since the last character for that purpose. Where every body consumes something, no
choice comes up twice and nothing has to be remembered.

The text a match is sought in begins at `start`; conditions on the place look no further back.
-/

namespace Backtrack

def isWordByte (b : UInt8) : Bool := CharClass.word.contains b.toNat

def byteBefore? (text : Array UInt8) (start p : Nat) : Option UInt8 :=
  if start < p then text[p - 1]? else none

def Assertion.holds (text : Array UInt8) (start p : Nat) : Assertion → Bool
  | beginText => p = start
  | endText => p = text.size
  | beginLine => p = start || byteBefore? text start p == some 10
  | endLine => p = text.size || text[p]? == some 10
  | wordBoundary => atBoundary
  | noWordBoundary => !atBoundary
where
  atBoundary : Bool := (byteBefore? text start p).any isWordByte != (text[p]?).any isWordByte

namespace Regex

section Lists

variable {α : Type}

def firsts (key : α → Nat) (as : List α) : List α :=
  let step := fun ((seen, kept) : Std.HashSet Nat × List α) a =>
    if seen.contains (key a) then (seen, kept) else (seen.insert (key a), a :: kept)
  (as.foldl step ({}, [])).2.reverse

/-- Continues from every element of a list, in order, and keeps the first result with each key. -/
def continueFrom (key : α → Nat) (as : List α) (step : α → List α) : List α :=
  firsts key (as.flatMap step)

/-- What is reached by going on, and the place itself, which a greedy choice tries last. -/
def withStop (key : α → Nat) (greedy : Bool) (a : α) (more : List α) : List α :=
  firsts key (if greedy then more ++ [a] else a :: more)

/-- What is left to do on a walk along repeated matches. -/
inductive Task (α : Type) where
  | visit (a : α)
  | stop (a : α)

/-- Walks along repeated matches, going on from each key once, and lists where the walk may stop.
Each key makes one stop and as many visits as a step has results, which `fuel` bounds. -/
def walk (key : α → Nat) (greedy : Bool) (step : α → List α) :
    (fuel : Nat) → (seen : Std.HashSet Nat) → (stops : List α) → List (Task α) → List α
  | 0, _, stops, _ => stops.reverse
  | _, _, stops, [] => stops.reverse
  | fuel + 1, seen, stops, .stop a :: rest => walk key greedy step fuel seen (a :: stops) rest
  | fuel + 1, seen, stops, .visit a :: rest =>
    if seen.contains (key a) then walk key greedy step fuel seen stops rest
    else
      let seen := seen.insert (key a)
      let onward := (step a).map .visit
      if greedy then walk key greedy step fuel seen stops (onward ++ .stop a :: rest)
      else walk key greedy step fuel seen (a :: stops) (onward ++ rest)

def walkFrom (key : α → Nat) (greedy : Bool) (step : α → List α) (fuel : Nat) (places : List α) :
    List α :=
  walk key greedy step fuel {} [] (places.map .visit)

def exactly (key : α → Nat) (step : Nat → α → List α) : (n i : Nat) → List α → List α
  | 0, _, as => as
  | n + 1, i, as => exactly key step n (i + 1) (continueFrom key as (step i))

/-- At most `n` steps, numbered from `i` on. `width` bounds the keys, so that a place and the number
of steps that led there have a key together. -/
def atMost (key : α → Nat) (width fuel : Nat) (greedy : Bool) (step : Nat → α → List α) (n i : Nat)
    (a : α) : List α :=
  let onward : Nat × α → List (Nat × α) := fun (done, a) =>
    if done < n then (step (i + done) a).map (done + 1, ·) else []
  let stops := walkFrom (fun (done, a) => done * width + key a) greedy onward fuel [(0, a)]
  firsts key (stops.map Prod.snd)

end Lists

/-- A place that was reached, and the choices made there on the way since the last character. -/
structure Arrival where
  place : Nat
  choices : List Nat
  deriving Repr

/-- The arrival at a choice, unless this choice is being made at the same place already. -/
def Arrival.choose? (a : Arrival) (number : Nat) : Option Arrival :=
  if a.choices.contains number then none else some { a with choices := number :: a.choices }

def Arrival.choose (a : Arrival) (number : Nat) (next : Arrival → List Arrival) : List Arrival :=
  match a.choose? number with
  | some a => next a
  | none => []

/-- The arrivals after one or more matches of a body that may match nothing. After each match there
is the choice to go on or to stop. -/
def loopPlus (greedy : Bool) (number fuel : Nat) (body : Arrival → List Arrival) (a : Arrival) :
    List Arrival :=
  let step (a : Arrival) : List Arrival := (body a).filterMap (·.choose? number)
  walkFrom Arrival.place greedy step fuel (step a)

def loopStar (greedy : Bool) (number fuel : Nat) (body : Arrival → List Arrival) (a : Arrival) :
    List Arrival :=
  a.choose number fun a =>
    withStop Arrival.place greedy a (loopPlus greedy (number + 1) fuel body a)

/-- The arrivals after one or more matches of a body that consumes something. -/
def runPlus (greedy : Bool) (number fuel : Nat) (body : Nat → List Nat) (a : Arrival) :
    List Arrival :=
  (walkFrom id greedy body fuel (body a.place)).map fun p => ⟨p, [number]⟩

def runStar (greedy : Bool) (number fuel : Nat) (body : Nat → List Nat) (a : Arrival) :
    List Arrival :=
  a.choose number fun a =>
    (walkFrom id greedy body fuel [a.place]).map fun p => if p = a.place then a else ⟨p, [number]⟩

def walkFuel (text : Array UInt8) : Nat := (text.size + 3) * (text.size + 3)

def endsBetween (text : Array UInt8) (greedy : Bool) (least most : Nat) (step : Nat → List Nat)
    (p : Nat) : List Nat :=
  let onward (p : Nat) : List Nat :=
    atMost id (text.size + 1) ((most + 1) * walkFuel text) greedy (fun _ => step) (most - least) 0 p
  continueFrom id (exactly id (fun _ => step) least 0 [p]) onward

/-- The arrivals after at least `least` and at most `most` matches. Each match that may be left out
has a choice of its own in front. -/
def arrivalsBetween (text : Array UInt8) (greedy : Bool) (least most : Nat) (number : Nat → Nat)
    (step : Nat → Arrival → List Arrival) (a : Arrival) : List Arrival :=
  let enter (i : Nat) (a : Arrival) : List Arrival :=
    if i < most then (a.choose? (number i)).toList else [a]
  let onward (a : Arrival) : List Arrival :=
    continueFrom Arrival.place (enter least a)
      (atMost Arrival.place (text.size + 1) ((most + 1) * walkFuel text) greedy
        (fun i a => (step i a).flatMap (enter (i + 1))) (most - least) least)
  continueFrom Arrival.place (exactly Arrival.place step least 0 [a]) onward

mutual

/-- The places where a match from a place can end, the preferred one first. -/
def ends (text : Array UInt8) (start : Nat) : Regex → Nat → List Nat
  | empty, p => [p]
  | chars c, p =>
    match Utf8.at? text p with
    | some (ch, width) => if c.contains ch.toNat then [p + width] else []
    | none => []
  | check a, p => if a.holds text start p then [p] else []
  | seq r s, p => continueFrom id (r.ends text start p) (s.ends text start)
  | alt r s, p => firsts id (r.ends text start p ++ s.ends text start p)
  | opt greedy r, p => withStop id greedy p (r.ends text start p)
  | star greedy r, p =>
    if r.isNullable then
      (loopStar greedy 0 (walkFuel text) (r.arrivals text start 2) ⟨p, []⟩).map Arrival.place
    else walkFrom id greedy (r.ends text start) (walkFuel text) [p]
  | plus greedy r, p =>
    if r.isNullable then
      (loopPlus greedy 0 (walkFuel text) (r.arrivals text start 1) ⟨p, []⟩).map Arrival.place
    else walkFrom id greedy (r.ends text start) (walkFuel text) (r.ends text start p)
  | count greedy least (some most) r, p =>
    endsBetween text greedy least most (r.ends text start) p
  | count greedy 0 none r, p =>
    if r.isNullable then
      (loopStar greedy 0 (walkFuel text) (r.arrivals text start 2) ⟨p, []⟩).map Arrival.place
    else walkFrom id greedy (r.ends text start) (walkFuel text) [p]
  | count greedy (n + 1) none r, p =>
    let step := r.ends text start
    let onward (p : Nat) : List Nat :=
      if r.isNullable then
        (loopPlus greedy 0 (walkFuel text) (r.arrivals text start 1) ⟨p, []⟩).map Arrival.place
      else walkFrom id greedy step (walkFuel text) (step p)
    continueFrom id (exactly id (fun _ => step) n 0 [p]) onward

/-- The arrivals behind a match inside a repetition whose body may match nothing. The choices in the
expression are numbered from `base` on. -/
def arrivals (text : Array UInt8) (start : Nat) : Regex → (base : Nat) → Arrival → List Arrival
  | empty, _, a => [a]
  | chars c, _, a =>
    match Utf8.at? text a.place with
    | some (ch, width) => if c.contains ch.toNat then [⟨a.place + width, []⟩] else []
    | none => []
  | check c, _, a => if c.holds text start a.place then [a] else []
  | seq r s, base, a =>
    continueFrom Arrival.place (r.arrivals text start base a)
      (s.arrivals text start (base + r.choices))
  | alt r s, base, a =>
    a.choose base fun a =>
      firsts Arrival.place
        (r.arrivals text start (base + 1) a ++ s.arrivals text start (base + 1 + r.choices) a)
  | opt greedy r, base, a =>
    a.choose base fun a => withStop Arrival.place greedy a (r.arrivals text start (base + 1) a)
  | star greedy r, base, a =>
    if r.isNullable then loopStar greedy base (walkFuel text) (r.arrivals text start (base + 2)) a
    else runStar greedy base (walkFuel text) (r.ends text start) a
  | plus greedy r, base, a =>
    if r.isNullable then loopPlus greedy base (walkFuel text) (r.arrivals text start (base + 1)) a
    else runPlus greedy base (walkFuel text) (r.ends text start) a
  | count greedy least (some most) r, base, a =>
    let number (i : Nat) : Nat := base + i * (r.choices + 2)
    let step (i : Nat) : Arrival → List Arrival := r.arrivals text start (number i + 2)
    arrivalsBetween text greedy least most number step a
  | count greedy 0 none r, base, a =>
    if r.isNullable then loopStar greedy base (walkFuel text) (r.arrivals text start (base + 2)) a
    else runStar greedy base (walkFuel text) (r.ends text start) a
  | count greedy (n + 1) none r, base, a =>
    let number (i : Nat) : Nat := base + i * (r.choices + 2)
    let step (i : Nat) : Arrival → List Arrival := r.arrivals text start (number i + 2)
    let onward : Arrival → List Arrival :=
      if r.isNullable then loopPlus greedy (number n) (walkFuel text) (step n)
      else runPlus greedy (number n) (walkFuel text) (r.ends text start)
    continueFrom Arrival.place (exactly Arrival.place step n 0 [a]) onward

end

/-- Looks for the first place from `p` on where a match starts, character by character, and answers
where the preferred match from there ends. -/
def search (text : Array UInt8) (start : Nat) (r : Regex) : (fuel : Nat) → Nat → Option Nat
  | 0, _ => none
  | fuel + 1, p =>
    match (r.ends text start p).head? with
    | some q => some q
    | none =>
      match Utf8.at? text p with
      | some (_, width) => search text start r fuel (p + width)
      | none => none

def findEnd? (text : Array UInt8) (start : Nat) (r : Regex) : Option Nat :=
  if r.isAnchored then (r.ends text start start).head?
  else search text start r (text.size + 1 - start) start

end Regex

end Backtrack
