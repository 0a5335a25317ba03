import Backtrack.Proofs.Parser.Agreement

/-!
# Journals of runs

The run of a term once more, this time with a journal: every call of a parser, every question to a
function that the grammar brings along, and every end of a call, in the order in which they happen.
A parser inside a term, the term itself, and what a reference stands for are all called. The
conditions, mappers and diagnostics of the grammar are asked.

The journal adds nothing to a run: its outcome is that of the term's parser, and the calls of named
parsers in it are the trace.
-/

namespace Backtrack

/-- A call of a parser, with the name of a named one. -/
structure Call where
  name : Option Bytes
  offset : Int

inductive Event where
  | called (call : Call)
  | asked
  | ended (call : Call) (exit : Exit)

def Event.isNamed : Event → Bool
  | called call | ended call _ => call.name.isSome
  | asked => false

def Trace.events : Trace → List Event
  | nil => []
  | both s t => s.events ++ t.events
  | named name offset inner exit =>
    .called ⟨some name, offset⟩ :: inner.events ++ [.ended ⟨some name, offset⟩ exit]

@[simp] theorem Trace.events_append (s t : Trace) : (s.append t).events = s.events ++ t.events := by
  cases s with
  | nil => rfl
  | both | named => cases t <;> simp [Trace.append, Trace.events]

/-- A run with its journal. -/
structure Watched (α : Type) where
  outcome : Outcome α
  journal : List Event

namespace Watched

variable {α β : Type}

def quiet (r : Run α) : Watched α := ⟨r.outcome, []⟩

def after (journal : List Event) (w : Watched α) : Watched α :=
  { w with journal := journal ++ w.journal }

@[simp] theorem after_nil (w : Watched α) : w.after [] = w := rfl

def asking (w : Watched α) : Watched α := w.after [.asked]

def goOn (w : Watched α) (onMatch : α → Int → Watched β) (onMiss : Int → Watched β) :
    Watched β :=
  match w.outcome with
  | .success a next => (onMatch a next).after w.journal
  | .miss next => (onMiss next).after w.journal
  | .fatal e => ⟨.fatal e, w.journal⟩
  | .halted why => ⟨.halted why, w.journal⟩

def onSuccess (w : Watched α) (next : α → Int → Watched β) : Watched β :=
  w.goOn next fun offset => .quiet (.miss offset)

def onMiss (w : Watched α) (next : Int → Watched α) : Watched α :=
  w.goOn (fun a offset => .quiet (.success a offset)) next

theorem after_goOn (w : Watched α) (onMatch : α → Int → Watched β) (onMiss : Int → Watched β)
    (journal : List Event) :
    (w.goOn onMatch onMiss).after journal = (w.after journal).goOn onMatch onMiss := by
  obtain ⟨outcome, inner⟩ := w
  cases outcome <;> simp [goOn, after]

def calling (call : Call) (w : Watched α) : Watched α :=
  { w with journal := .called call :: w.journal ++ [.ended call w.outcome.exit] }

end Watched

abbrev Watcher (α : Type) := Input → Int → Watched α

namespace Watcher

variable {α : Type}

def call (name : Option Bytes) (p : Watcher α) : Watcher α :=
  fun input offset => (p input offset).calling ⟨name, offset⟩

def sequenceFrom (values : List α) : List (Watcher α) → Watcher (List α)
  | [] => fun _ offset => .quiet (.success values.reverse offset)
  | p :: ps => fun input offset =>
    (p input offset).onSuccess fun a next => sequenceFrom (a :: values) ps input next

def oneOfFrom (furthest : Int) : List (Watcher α) → Watcher α
  | [] => fun _ _ => .quiet (.miss furthest)
  | p :: ps => fun input offset =>
    (p input offset).onMiss fun missed =>
      oneOfFrom (if furthest < missed then missed else furthest) ps input offset

def repeatExactly (p : Watcher α) (rest : List α → Watcher (List α)) :
    (n : Nat) → (values : List α) → Watcher (List α)
  | 0, values => rest values
  | n + 1, values => fun input offset =>
    (p input offset).onSuccess fun a next => repeatExactly p rest n (a :: values) input next

def repeatUpTo (p : Watcher α) (input : Input) :
    (n : Nat) → (values : List α) → (offset : Int) → Watched (List α)
  | 0, values, offset => .quiet (.success values.reverse offset)
  | n + 1, values, offset =>
    (p input offset).goOn (fun a next => repeatUpTo p input n (a :: values) next)
      fun _ => .quiet (.success values.reverse offset)

def repeatMany (p : Watcher α) (input : Input) :
    (fuel : Nat) → (values : List α) → (offset : Int) → Watched (List α)
  | 0, _, _ => ⟨.halted .outOfFuel, []⟩
  | fuel + 1, values, offset =>
    (p input offset).goOn
      (fun a next =>
        if next = offset then .quiet (.success values.reverse offset)
        else repeatMany p input fuel (a :: values) next)
      fun _ => .quiet (.success values.reverse offset)

def repeated (bounds : Bounds) (p : Watcher α) : Watcher (List α) := fun input offset =>
  if bounds.Holdable then
    repeatExactly p
      (fun values input next =>
        match bounds.most with
        | none => repeatMany p input ((input.size - next).toNat + 1) values next
        | some most => repeatUpTo p input (most - bounds.least) values next)
      bounds.least [] input offset
  else .quiet (.fault .unholdable)

end Watcher

namespace Term

variable {ι : Type} {τ : ι → Type}

/-- The runs of a term with their journals, given those of what its references stand for. -/
def watcher (refs : (i : ι) → Watcher (τ i)) {α : Type} : Term τ α → Watcher α
  | satisfy condition => .call none fun input offset =>
    match input.char? offset with
    | .error f => .quiet (.fault f)
    | .ok none => .quiet (.miss offset)
    | .ok (some (c, width)) =>
      .asking <| .quiet <| if condition c then .success c (offset + width) else .miss offset
  | literal text => .call none fun input offset => .quiet (Parser.literal text input offset)
  | pattern r => .call none fun input offset => .quiet (Parser.pattern r input offset)
  | atEnd => .call none fun input offset => .quiet (Parser.atEnd input offset)
  | always value => .call none fun _ offset => .quiet (.success value offset)
  | never => .call none fun _ offset => .quiet (.miss offset)
  | fault f => .call none fun _ _ => .quiet (.fault f)
  | and p q => .call none fun input offset =>
    (p.watcher refs input offset).onSuccess fun a middle =>
      (q.watcher refs input middle).onSuccess fun b next => .quiet (.success (a, b) next)
  | sequence n ps => .call none <|
    Watcher.sequenceFrom [] (List.ofFn fun i : Fin n => (ps i).watcher refs)
  | map f p => .call none fun input offset =>
    (p.watcher refs input offset).onSuccess fun a next => .asking (.quiet (.success (f a) next))
  | mapErr f p => .call none fun input offset =>
    (p.watcher refs input offset).onSuccess fun a next => .asking <| .quiet <|
      match f a with
      | .ok b => .success b next
      | .error error => .ofExcept (input.annotate offset error) .fatal
  | filter condition p => .call none fun input offset =>
    (p.watcher refs input offset).onSuccess fun a next => .asking <| .quiet <|
      if condition a then .success a next else .miss offset
  | flatMap p f => .call none fun input offset =>
    (p.watcher refs input offset).onSuccess fun a middle => .asking <|
      ((f a).watcher refs input middle).onSuccess fun b next => .quiet (.success (a, b) next)
  | or p q => .call none fun input offset =>
    (p.watcher refs input offset).onMiss fun missed =>
      (q.watcher refs input offset).onMiss fun other =>
        .quiet (.miss (if other < missed then missed else other))
  | oneOf n ps => .call none fun input offset =>
    Watcher.oneOfFrom offset (List.ofFn fun i : Fin n => (ps i).watcher refs) input offset
  | repeated bounds p => .call none (Watcher.repeated bounds (p.watcher refs))
  | optional default p => .call none fun input offset =>
    (p.watcher refs input offset).onMiss fun _ => .quiet (.success default offset)
  | lookahead p => .call none fun input offset =>
    (p.watcher refs input offset).onSuccess fun a _ => .quiet (.success a offset)
  | not p => .call none fun input offset =>
    (p.watcher refs input offset).goOn (fun _ _ => .quiet (.miss offset))
      fun _ => .quiet (.success () offset)
  | commit diagnostic p => .call none fun input offset =>
    (p.watcher refs input offset).onMiss fun missed => .asking <| .quiet <|
      .ofExcept (do input.annotate missed (← diagnostic input missed)) .fatal
  | named name p => .call (some name) (p.watcher refs)
  | ref i => .call none (refs i)

end Term

namespace Definitions

variable {ι : Type} {τ : ι → Type}

/-- The runs with journals of what a reference stands for, followed to a depth. -/
def watchedRefsAt (defs : Definitions τ) : (depth : Nat) → (i : ι) → Watcher (τ i)
  | 0, _ => fun _ _ => ⟨.halted .outOfFuel, []⟩
  | depth + 1, i =>
    match defs i with
    | some body => body.watcher (defs.watchedRefsAt depth)
    | none => fun _ _ => .quiet (.fault .undefinedReference)

/-- The runs of a term with their journals, with references followed to a depth. -/
def watcherAt (defs : Definitions τ) (depth : Nat) {α : Type} (t : Term τ α) : Watcher α :=
  t.watcher (defs.watchedRefsAt depth)

end Definitions

/-- The same outcome with and without a journal, and the named calls of the journal are the
trace. -/
structure Watched.Shows {α : Type} (w : Watched α) (r : Run α) : Prop where
  outcome : w.outcome = r.outcome
  named : w.journal.filter Event.isNamed = r.trace.events

namespace Watched.Shows

variable {α β : Type}

theorem of_quiet {r : Run α} (h : r.trace = .nil) : (Watched.quiet r).Shows r :=
  ⟨rfl, by rw [h]; rfl⟩

theorem after {w : Watched α} {r : Run α} (h : w.Shows r) {journal : List Event} {trace : Trace}
    (hj : journal.filter Event.isNamed = trace.events) :
    (w.after journal).Shows (r.after trace) where
  outcome := h.outcome
  named := by simp [Watched.after, Run.after, hj, h.named]

theorem asking {w : Watched α} {r : Run α} (h : w.Shows r) : w.asking.Shows r :=
  ⟨h.outcome, h.named⟩

/-- Where nothing is called any more, the journal so far shows the trace so far. -/
theorem of_journal {r : Run α} {journal : List Event} {trace : Trace}
    (hj : journal.filter Event.isNamed = trace.events) :
    ((Watched.quiet r).after journal).Shows { outcome := r.outcome, trace := trace } :=
  ⟨rfl, by simpa [Watched.after, Watched.quiet] using hj⟩

theorem goOn {w : Watched α} {r : Run α} {s : Run β} (h : w.Shows r) {f : α → Int → Watched β}
    {g : Int → Watched β}
    (hmatch : ∀ a next, r.outcome = .success a next → ((f a next).after w.journal).Shows s)
    (hmiss : ∀ next, r.outcome = .miss next → ((g next).after w.journal).Shows s)
    (hstop : ∀ why, r.outcome.stop? = some why →
      s.outcome.stop? = some why ∧ s.trace.events = r.trace.events) :
    (w.goOn f g).Shows s := by
  obtain ⟨outcome, journal⟩ := w
  obtain ⟨rfl, hj⟩ := h
  cases houtcome : r.outcome with
  | success a next => exact hmatch a next houtcome
  | miss next => exact hmiss next houtcome
  | fatal e =>
    obtain ⟨hs, htrace⟩ := hstop (.fatal e) (by rw [houtcome]; rfl)
    refine ⟨?_, hj.trans htrace.symm⟩
    cases hs' : s.outcome <;> simp_all [Outcome.stop?, Watched.goOn]
  | halted why =>
    obtain ⟨hs, htrace⟩ := hstop (.halted why) (by rw [houtcome]; rfl)
    refine ⟨?_, hj.trans htrace.symm⟩
    cases hs' : s.outcome <;> simp_all [Outcome.stop?, Watched.goOn]

theorem onSuccess {w : Watched α} {r : Run α} (h : w.Shows r) {f : α → Int → Watched β}
    {g : α → Int → Run β} (hfg : ∀ a next, (f a next).Shows (g a next)) :
    (w.onSuccess f).Shows (r.onSuccess g) := by
  obtain ⟨outcome, trace⟩ := r
  refine h.goOn ?_ ?_ ?_
  · rintro a next ⟨⟩
    exact (hfg a next).after h.named
  · rintro next ⟨⟩
    exact of_journal h.named
  · intro why hwhy
    cases outcome with
    | success | miss => cases hwhy
    | fatal | halted => exact ⟨hwhy, rfl⟩

theorem onMiss {w : Watched α} {r : Run α} (h : w.Shows r) {f : Int → Watched α}
    {g : Int → Run α} (hfg : ∀ next, (f next).Shows (g next)) :
    (w.onMiss f).Shows (r.onMiss g) := by
  obtain ⟨outcome, trace⟩ := r
  refine h.goOn ?_ ?_ ?_
  · rintro a next ⟨⟩
    exact of_journal h.named
  · rintro next ⟨⟩
    exact (hfg next).after h.named
  · intro why hwhy
    cases outcome with
    | success | miss => cases hwhy
    | fatal | halted => exact ⟨hwhy, rfl⟩

theorem calling {w : Watched α} {r : Run α} (h : w.Shows r) (offset : Int) :
    (w.calling ⟨none, offset⟩).Shows r :=
  ⟨h.outcome, by simpa [Watched.calling, Event.isNamed] using h.named⟩

end Watched.Shows

def Watcher.Shows {α : Type} (w : Watcher α) (p : Parser α) : Prop :=
  ∀ input offset, (w input offset).Shows (p input offset)

namespace Watcher.Shows

variable {α : Type} {w : Watcher α} {p : Parser α}

theorem call (h : w.Shows p) : (Watcher.call none w).Shows p :=
  fun input offset => (h input offset).calling offset

theorem call_named (h : w.Shows p) (name : Bytes) :
    (Watcher.call (some name) w).Shows (p.named name) := by
  intro input offset
  have hrun := h input offset
  refine ⟨hrun.outcome, ?_⟩
  unfold Watcher.call Watched.calling Parser.named
  simp only [List.cons_append, List.filter_cons, List.filter_append, Event.isNamed, Trace.events,
    hrun.named, hrun.outcome]
  rfl

theorem sequenceFrom {ws : List (Watcher α)} {ps : List (Parser α)}
    (h : List.Forall₂ Watcher.Shows ws ps) (values : List α) :
    (Watcher.sequenceFrom values ws).Shows (Parser.sequenceFrom values ps) := by
  induction h generalizing values with
  | nil => exact fun _ _ => .of_quiet rfl
  | cons hp _ ih =>
    intro input offset
    exact (hp input offset).onSuccess fun a next => ih (a :: values) input next

theorem oneOfFrom {ws : List (Watcher α)} {ps : List (Parser α)}
    (h : List.Forall₂ Watcher.Shows ws ps) (furthest : Int) :
    (Watcher.oneOfFrom furthest ws).Shows (Parser.oneOfFrom furthest ps) := by
  induction h generalizing furthest with
  | nil => exact fun _ _ => .of_quiet rfl
  | cons hp _ ih =>
    intro input offset
    exact (hp input offset).onMiss fun missed => ih _ input offset

theorem repeatExactly (h : w.Shows p) {rest : List α → Watcher (List α)}
    {rest' : List α → Parser (List α)} (hrest : ∀ values, (rest values).Shows (rest' values))
    (n : Nat) (values : List α) :
    (Watcher.repeatExactly w rest n values).Shows (Parser.repeatExactly p rest' n values) := by
  induction n generalizing values with
  | zero => exact hrest values
  | succ n ih =>
    intro input offset
    exact (h input offset).onSuccess fun a next => ih (a :: values) input next

/-- The parser keeps the trace so far in an argument, the watcher in front of the journal. -/
theorem repeatUpTo (h : w.Shows p) (input : Input) (n : Nat) (values : List α)
    {journal : List Event} {trace : Trace} (offset : Int)
    (hj : journal.filter Event.isNamed = trace.events) :
    ((Watcher.repeatUpTo w input n values offset).after journal).Shows
      (Parser.repeatUpTo p input n values trace offset) := by
  induction n generalizing values journal trace offset with
  | zero => exact .of_journal hj
  | succ n ih =>
    have hrun := (h input offset).after hj
    unfold Watcher.repeatUpTo Parser.repeatUpTo
    rw [Watched.after_goOn]
    dsimp only
    refine hrun.goOn ?_ ?_ ?_
    · intro a next ha
      rw [show (p input offset).outcome = .success a next from ha]
      exact ih (a :: values) next hrun.named
    · intro next hnext
      rw [show (p input offset).outcome = .miss next from hnext]
      exact .of_journal hrun.named
    · intro why hwhy
      change (p input offset).outcome.stop? = some why at hwhy
      cases houtcome : (p input offset).outcome <;> rw [houtcome] at hwhy
      case success | miss => cases hwhy
      case fatal | halted => exact ⟨hwhy, rfl⟩

theorem repeatMany (h : w.Shows p) (input : Input) (fuel : Nat) (values : List α)
    {journal : List Event} {trace : Trace} (offset : Int)
    (hj : journal.filter Event.isNamed = trace.events) :
    ((Watcher.repeatMany w input fuel values offset).after journal).Shows
      (Parser.repeatMany p input fuel values trace offset) := by
  induction fuel generalizing values journal trace offset with
  | zero => exact ⟨rfl, by simpa [Watcher.repeatMany, Parser.repeatMany, Watched.after] using hj⟩
  | succ fuel ih =>
    have hrun := (h input offset).after hj
    unfold Watcher.repeatMany Parser.repeatMany
    rw [Watched.after_goOn]
    dsimp only
    refine hrun.goOn ?_ ?_ ?_
    · intro a next ha
      rw [show (p input offset).outcome = .success a next from ha]
      dsimp only
      split
      · exact .of_journal hrun.named
      · exact ih (a :: values) next hrun.named
    · intro next hnext
      rw [show (p input offset).outcome = .miss next from hnext]
      exact .of_journal hrun.named
    · intro why hwhy
      change (p input offset).outcome.stop? = some why at hwhy
      cases houtcome : (p input offset).outcome <;> rw [houtcome] at hwhy
      case success | miss => cases hwhy
      case fatal | halted => exact ⟨hwhy, rfl⟩

theorem repeated (h : w.Shows p) (bounds : Bounds) :
    (Watcher.repeated bounds w).Shows (p.repeated bounds) := by
  intro input offset
  unfold Watcher.repeated Parser.repeated
  split
  · have hnil : ([] : List Event).filter Event.isNamed = Trace.nil.events := rfl
    refine repeatExactly h (fun values input next => ?_) bounds.least [] input offset
    cases bounds.most with
    | none => simpa using repeatMany h input ((input.size - next).toNat + 1) values next hnil
    | some most => simpa using repeatUpTo h input (most - bounds.least) values next hnil
  · exact .of_quiet rfl

end Watcher.Shows

section Terms

variable {ι : Type} {τ : ι → Type} {α : Type}

theorem Run.ofExcept_trace {ε : Type} {e : Except Fault ε} {next : ε → Run α}
    (h : ∀ x, (next x).trace = .nil) : (Run.ofExcept e next).trace = .nil := by
  cases e with
  | ok x => exact h x
  | error f => rfl

theorem Term.watcher_shows {refs : (i : ι) → Watcher (τ i)} {refs' : (i : ι) → Parser (τ i)}
    (h : ∀ i, (refs i).Shows (refs' i)) (t : Term τ α) :
    (t.watcher refs).Shows (t.parser refs') := by
  induction t with
  | satisfy condition =>
    refine .call fun input offset => ?_
    change Watched.Shows _ (Parser.satisfy condition input offset)
    unfold Parser.satisfy
    cases input.char? offset with
    | error f => exact .of_quiet rfl
    | ok found =>
      cases found with
      | none => exact .of_quiet rfl
      | some found =>
        refine .asking (.of_quiet ?_)
        split <;> rfl
  | literal text =>
    refine .call fun input offset => .of_quiet (Run.ofExcept_trace fun place => ?_)
    split <;> rfl
  | pattern r =>
    refine .call fun input offset => .of_quiet (Run.ofExcept_trace fun place => ?_)
    split <;> rfl
  | atEnd =>
    refine .call fun input offset => .of_quiet ?_
    unfold Parser.atEnd
    split <;> rfl
  | always value => exact .call fun _ _ => .of_quiet rfl
  | never => exact .call fun _ _ => .of_quiet rfl
  | fault f => exact .call fun _ _ => .of_quiet rfl
  | and p q ihp ihq =>
    refine .call fun input offset => (ihp input offset).onSuccess fun a middle => ?_
    exact (ihq input middle).onSuccess fun b next => .of_quiet rfl
  | sequence n ps ih => exact .call (.sequenceFrom (forall₂_ofFn ih) [])
  | map f p ih =>
    exact .call fun input offset =>
      (ih input offset).onSuccess fun a next => .asking (.of_quiet rfl)
  | mapErr f p ih =>
    refine .call fun input offset => (ih input offset).onSuccess fun a next => .asking ?_
    refine .of_quiet ?_
    split
    · rfl
    · exact Run.ofExcept_trace fun _ => rfl
  | filter condition p ih =>
    refine .call fun input offset => (ih input offset).onSuccess fun a next => .asking ?_
    exact .of_quiet (by split <;> rfl)
  | flatMap p f ihp ihf =>
    refine .call fun input offset => (ihp input offset).onSuccess fun a middle => .asking ?_
    exact (ihf a input middle).onSuccess fun b next => .of_quiet rfl
  | or p q ihp ihq =>
    refine .call fun input offset => (ihp input offset).onMiss fun missed => ?_
    exact (ihq input offset).onMiss fun other => .of_quiet rfl
  | oneOf n ps ih =>
    exact .call fun input offset =>
      Watcher.Shows.oneOfFrom (forall₂_ofFn ih) offset input offset
  | repeated bounds p ih => exact .call (ih.repeated bounds)
  | optional default p ih =>
    exact .call fun input offset => (ih input offset).onMiss fun _ => .of_quiet rfl
  | lookahead p ih =>
    exact .call fun input offset => (ih input offset).onSuccess fun _ _ => .of_quiet rfl
  | not p ih =>
    refine .call fun input offset => ?_
    change Watched.Shows _ (Parser.not _ input offset)
    have hrun := ih input offset
    unfold Parser.not
    dsimp only
    refine hrun.goOn ?_ ?_ ?_
    · intro a next ha
      rw [ha]
      exact .of_journal hrun.named
    · intro next hnext
      rw [hnext]
      exact .of_journal hrun.named
    · intro why hwhy
      cases houtcome : (p.parser refs' input offset).outcome <;> rw [houtcome] at hwhy
      all_goals exact ⟨hwhy, rfl⟩
  | commit diagnostic p ih =>
    refine .call fun input offset => (ih input offset).onMiss fun missed => .asking ?_
    exact .of_quiet (Run.ofExcept_trace fun _ => rfl)
  | named name p ih => exact ih.call_named name
  | ref i => exact .call (h i)

theorem Definitions.watchedRefsAt_shows (defs : Definitions τ) (depth : Nat) (i : ι) :
    (defs.watchedRefsAt depth i).Shows (defs.refsAt depth i) := by
  induction depth generalizing i with
  | zero => exact fun _ _ => ⟨rfl, rfl⟩
  | succ depth ih =>
    simp only [watchedRefsAt, refsAt]
    cases defs i with
    | none => exact fun _ _ => .of_quiet rfl
    | some body =>
      dsimp only
      rw [parserAt_eq]
      exact body.watcher_shows ih

/-- A journal tells of the run that the term has without it. -/
theorem Definitions.watcherAt_shows (defs : Definitions τ) (depth : Nat) (t : Term τ α) :
    (defs.watcherAt depth t).Shows (defs.parserAt depth t) := by
  rw [parserAt_eq]
  exact t.watcher_shows (defs.watchedRefsAt_shows depth)

end Terms

end Backtrack
