import Backtrack.Regex.Read

/-!
# Compiled patterns, kept

Compiling a pattern a second time gives the object of the first time. A cache keeps one object for
each pattern and never gives it up. `Cache.compile` serves one call from start to end. `Call.step`
is the same work cut into its three atomic steps: look the pattern up, compile it, and keep the
result unless another call was faster. `Session.run` interleaves the steps of any number of calls.

This module does not say how patterns are read or matched.
-/

namespace Backtrack.Regex

/-- A compiled pattern. The serial number tells it from every other compilation, also from another
one of the same pattern. -/
structure Compiled where
  /-- Which compilation made it. -/
  serial : Nat
  regex : Regex
  deriving Repr

structure Cache where
  entries : List (Bytes × Compiled) := []
  made : Nat := 0
  deriving Repr

namespace Cache

def find? (cache : Cache) (pattern : Bytes) : Option Compiled := cache.entries.lookup pattern

def make (cache : Cache) (pattern : Bytes) : Reading (Compiled × Cache) := do
  let regex ← readAnchored pattern
  return (⟨cache.made, regex⟩, { cache with made := cache.made + 1 })

/-- The object kept for a pattern. If there is none yet, the one given is kept. -/
def findOrInsert (cache : Cache) (pattern : Bytes) (fresh : Compiled) : Compiled × Cache :=
  match cache.find? pattern with
  | some kept => (kept, cache)
  | none => (fresh, { cache with entries := (pattern, fresh) :: cache.entries })

/-- The object for a pattern, which is compiled on its first use only. -/
def compile (cache : Cache) (pattern : Bytes) : Reading (Compiled × Cache) :=
  match cache.find? pattern with
  | some kept => .ok (kept, cache)
  | none => do
    let (fresh, cache) ← cache.make pattern
    return cache.findOrInsert pattern fresh

end Cache

inductive Stage where
  | asked
  | absent
  /-- The pattern has been compiled, and the result is not kept yet. -/
  | made (fresh : Compiled)
  | answered (answer : Reading Compiled)

structure Call where
  pattern : Bytes
  stage : Stage := .asked

/-- The next atomic step of a call. A call that has its answer rests. -/
def Call.step (call : Call) (cache : Cache) : Call × Cache :=
  match call.stage with
  | .asked =>
    match cache.find? call.pattern with
    | some kept => ({ call with stage := .answered (.ok kept) }, cache)
    | none => ({ call with stage := .absent }, cache)
  | .absent =>
    match cache.make call.pattern with
    | .ok (fresh, cache) => ({ call with stage := .made fresh }, cache)
    | .error e => ({ call with stage := .answered (.error e) }, cache)
  | .made fresh =>
    let (kept, cache) := cache.findOrInsert call.pattern fresh
    ({ call with stage := .answered (.ok kept) }, cache)
  | .answered _ => (call, cache)

structure Session where
  cache : Cache := {}
  calls : List Call

namespace Session

/-- One step of the call with this number; nothing happens if there is no such call. -/
def advance (s : Session) (i : Nat) : Session :=
  match s.calls[i]? with
  | none => s
  | some call =>
    let (call, cache) := call.step s.cache
    { cache, calls := s.calls.set i call }

/-- Lets the calls take turns as the schedule says. -/
def run (s : Session) (schedule : List Nat) : Session := schedule.foldl advance s

end Session

end Backtrack.Regex
