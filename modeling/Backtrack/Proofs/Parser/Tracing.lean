import Backtrack.Evaluation
import Backtrack.Proofs.Parser.Bounds
import Backtrack.Proofs.Parser.Journal

/-!
# Traces change nothing and are well nested

Three runs of one term are compared: before a writer, where every named parser writes a line when it
is called and a line when it is done; without a writer; and of the term without its names. Writing
reads the text, which is what could go wrong: the excerpt on entry and the matched text on exit have
to be there. Inside the text they always are, so the three runs come to the same outcome, and what a
run writes is its trace.

The lines are described on their own, by `Bracketed`, and are also those of the journal, where calls
and their ends stand in the order in which they happen.

This module does NOT describe what is written by a run that breaks down.
-/

namespace Backtrack

variable {ι : Type} {τ : ι → Type} {α β : Type}

/-- The text between two offsets, if these are in order and inside the text. -/
def Input.between? (input : Input) (lo hi : Int) : Except Fault Bytes :=
  if 0 ≤ lo ∧ lo ≤ hi ∧ hi ≤ input.size then .ok (input.slice lo.toNat hi.toNat)
  else .error .outOfRange

/-- A named parser before a writer. Its lines show what the text goes on with and what was matched;
where the text does not have that, the run breaks down. -/
def Parser.told (name : Bytes) (p : Parser α) : Parser α := fun input offset =>
  .ofExcept (input.near offset) fun _ =>
    let r := p.named name input offset
    match r.outcome with
    | .success _ next => .ofExcept (input.between? offset next) fun _ => r
    | _ => r

namespace Term

/-- The parser of a term with a writer or without; without one, names have no effect. -/
def teller (writes : Bool) (refs : (i : ι) → Parser (τ i)) {α : Type} : Term τ α → Parser α
  | satisfy condition => .satisfy condition
  | literal text => .literal text
  | pattern r => .pattern r
  | atEnd => .atEnd
  | always value => .always value
  | never => .never
  | fault f => .fault f
  | and p q => (p.teller writes refs).and (q.teller writes refs)
  | sequence n ps => .sequence (List.ofFn fun i : Fin n => (ps i).teller writes refs)
  | map f p => (p.teller writes refs).map f
  | mapErr f p => (p.teller writes refs).mapErr f
  | filter condition p => (p.teller writes refs).filter condition
  | flatMap p f => (p.teller writes refs).flatMap fun a => (f a).teller writes refs
  | or p q => (p.teller writes refs).or (q.teller writes refs)
  | oneOf n ps => .oneOf (List.ofFn fun i : Fin n => (ps i).teller writes refs)
  | repeated bounds p => (p.teller writes refs).repeated bounds
  | optional default p => (p.teller writes refs).optional default
  | lookahead p => (p.teller writes refs).lookahead
  | not p => (p.teller writes refs).not
  | commit diagnostic p => (p.teller writes refs).commit diagnostic
  | named name p => if writes then (p.teller writes refs).told name else p.teller writes refs
  | ref i => refs i

/-- A term without its names, also in what is built during a match. -/
def unnamed : {α : Type} → Term τ α → Term τ α
  | _, satisfy condition => satisfy condition
  | _, literal text => literal text
  | _, pattern r => pattern r
  | _, atEnd => atEnd
  | _, always value => always value
  | _, never => never
  | _, fault f => fault f
  | _, and p q => and p.unnamed q.unnamed
  | _, sequence n ps => sequence n fun i => (ps i).unnamed
  | _, map f p => map f p.unnamed
  | _, mapErr f p => mapErr f p.unnamed
  | _, filter condition p => filter condition p.unnamed
  | _, flatMap p f => flatMap p.unnamed fun a => (f a).unnamed
  | _, or p q => or p.unnamed q.unnamed
  | _, oneOf n ps => oneOf n fun i => (ps i).unnamed
  | _, repeated bounds p => repeated bounds p.unnamed
  | _, optional default p => optional default p.unnamed
  | _, lookahead p => lookahead p.unnamed
  | _, not p => not p.unnamed
  | _, commit diagnostic p => commit diagnostic p.unnamed
  | _, named _ p => p.unnamed
  | _, ref i => ref i

end Term

namespace Definitions

/-- What references stand for with a writer or without, followed to a depth. -/
def toldRefsAt (defs : Definitions τ) (writes : Bool) : (depth : Nat) → (i : ι) → Parser (τ i)
  | 0, _ => fun _ _ => { outcome := .halted .outOfFuel }
  | depth + 1, i =>
    match defs i with
    | some body => body.teller writes (defs.toldRefsAt writes depth)
    | none => .fault .undefinedReference

/-- The parser of a term with a writer or without, with references followed to a depth. -/
def tellerAt (defs : Definitions τ) (writes : Bool) (depth : Nat) (t : Term τ α) : Parser α :=
  t.teller writes (defs.toldRefsAt writes depth)

def unnamed (defs : Definitions τ) : Definitions τ := fun i => (defs i).map Term.unnamed

end Definitions

def Input.label (input : Input) (name : Bytes) (offset : Int) : Bytes :=
  (input.position offset).describe ++ " " ++ name

/-- What the exit line of a run says that starts at an offset and has an outcome. -/
inductive Verdict (input : Input) (offset : Int) : Outcome α → Bytes → Prop where
  | matched {value : α} {next : Int} {text : Bytes} (h : input.between? offset next = .ok text) :
      Verdict input offset (.success value next) ("matched " ++ Text.quoted text)
  | missed {next : Int} :
      Verdict input offset (.miss next) ("no match at " ++ (input.position next).describe)
  | aborted {e : ParseError} : Verdict input offset (.fatal e) ("fatal: " ++ e.text)

/-- The lines of some runs of named parsers, one after another: for each its entry line, what was
written inside it, and its exit line, which says what the run came to. -/
inductive Bracketed (defs : Definitions τ) (input : Input) : List Bytes → Prop where
  | nil : Bracketed defs input []
  | append {ls ms : List Bytes} (hls : Bracketed defs input ls) (hms : Bracketed defs input ms) :
      Bracketed defs input (ls ++ ms)
  | named {α : Type} {p : Term τ α} {depth : Nat} {name near verdict : Bytes} {offset : Int}
      {r : Run α} {inner : List Bytes} (hrun : defs.parserAt depth p input offset = r)
      (hinner : r.trace.lines input = inner) (h : Bracketed defs input inner)
      (hnear : input.near offset = .ok near) (hverdict : Verdict input offset r.outcome verdict) :
      Bracketed defs input <|
        (input.label name offset ++ " " ++ near ++ "\n") ::
          (inner ++ [input.label name offset ++ " " ++ verdict ++ "\n"])

def Event.lines (input : Input) : Event → List Bytes
  | called ⟨some name, offset⟩ => [Trace.entryLine input name offset]
  | ended ⟨some name, offset⟩ exit => [Trace.exitLine input name offset exit]
  | called ⟨none, _⟩ | ended ⟨none, _⟩ _ | asked => []

namespace Trace

variable {input : Input}

theorem lines_append (s t : Trace) : (s.append t).lines input = s.lines input ++ t.lines input := by
  cases s with
  | nil => rfl
  | both | named => cases t <;> simp [append, lines]

theorem lines_eq_events (t : Trace) : t.lines input = t.events.flatMap (Event.lines input) := by
  induction t with
  | nil => rfl
  | both s t ihs iht => simp [lines, events, ihs, iht]
  | named name offset inner exit ih => simp [lines, events, Event.lines, ih]

theorem bracketed_append {defs : Definitions τ} {s t : Trace}
    (hs : Bracketed defs input (s.lines input)) (ht : Bracketed defs input (t.lines input)) :
    Bracketed defs input ((s.append t).lines input) := by
  rw [lines_append]
  exact .append hs ht

theorem entryLine_eq {name near : Bytes} {offset : Int} (h : input.near offset = .ok near) :
    entryLine input name offset = input.label name offset ++ " " ++ near ++ "\n" := by
  simp only [entryLine, Input.label, h, Except.toOption, Option.getD_some]

theorem exitLine_eq {name verdict : Bytes} {offset : Int} {outcome : Outcome α}
    (h : Verdict input offset outcome verdict) :
    exitLine input name offset outcome.exit =
      input.label name offset ++ " " ++ verdict ++ "\n" := by
  cases h with
  | matched hbetween =>
    unfold Input.between? at hbetween
    split at hbetween
    · cases hbetween
      simp only [exitLine, Outcome.exit, Input.label, List.append_assoc]
      rfl
    · cases hbetween
  | missed =>
    simp only [exitLine, Outcome.exit, Input.label, List.append_assoc]
    rfl
  | aborted =>
    simp only [exitLine, Outcome.exit, Input.label, List.append_assoc]
    rfl

end Trace

theorem Event.flatMap_lines_named (journal : List Event) (input : Input) :
    (journal.filter isNamed).flatMap (lines input) = journal.flatMap (lines input) := by
  induction journal with
  | nil => rfl
  | cons event journal ih =>
    by_cases h : event.isNamed = true
    · rw [List.filter_cons_of_pos h, List.flatMap_cons, List.flatMap_cons, ih]
    · rw [List.filter_cons_of_neg h, List.flatMap_cons, ih]
      obtain ⟨name, offset⟩ | _ | ⟨⟨name, offset⟩, exit⟩ := event
      · cases name with
        | none => rfl
        | some name => exact absurd rfl h
      · rfl
      · cases name with
        | none => rfl
        | some name => exact absurd rfl h

section Inside

variable {input : Input} {offset next : Int} {p : Parser α}

theorem Input.between?_eq (h : 0 ≤ offset) (hle : offset ≤ next) (hend : next ≤ input.size) :
    input.between? offset next = .ok (input.slice offset.toNat next.toNat) := by
  unfold between?
  rw [if_pos ⟨h, hle, hend⟩]

theorem Run.Within.exists_verdict {r : Run α} (hr : r.Within .lax input offset) (h : 0 ≤ offset)
    (hend : ∀ why, r.outcome ≠ .halted why) : ∃ verdict, Verdict input offset r.outcome verdict := by
  cases houtcome : r.outcome with
  | success a next =>
    obtain ⟨hle, hsize⟩ := hr.matched a next houtcome
    exact ⟨_, .matched (input.between?_eq h hle hsize)⟩
  | miss next => exact ⟨_, .missed⟩
  | fatal e => exact ⟨_, .aborted⟩
  | halted why => exact absurd houtcome (hend why)

/-- Inside the text a writer finds what it shows. -/
theorem Parser.told_eq (hp : p.Within .lax) (h : 0 ≤ offset) (hsize : offset ≤ input.size)
    (name : Bytes) : p.told name input offset = p.named name input offset := by
  obtain ⟨near, hnear⟩ := input.near_isOk h
  unfold told
  rw [hnear]
  dsimp only [Run.ofExcept]
  split
  · rename_i a next hmatch
    obtain ⟨hle, hend⟩ := (hp input offset h hsize).matched a next hmatch
    rw [input.between?_eq h hle hend]
  · rfl

end Inside

/-- The run before a writer is the run with its trace, that without names has its outcome, and the
trace is one of runs of named parsers. -/
structure Run.Tells (defs : Definitions τ) (input : Input) (told quiet r : Run α) : Prop where
  told : told = r
  quiet : quiet = { outcome := r.outcome }
  bracketed : (∀ why, r.outcome ≠ .halted why) → Bracketed defs input (r.trace.lines input)

namespace Run.Tells

variable {defs : Definitions τ} {input : Input} {told quiet r : Run α}

theorem of_leaf {r : Run α} (h : r.trace = .nil) : Tells defs input r r r where
  told := rfl
  quiet := by
    cases r
    cases h
    rfl
  bracketed := by
    rw [h]
    exact fun _ => .nil

/-- Where nothing more is run, the trace so far is all there is. -/
theorem of_trace {trace : Trace} (h : Bracketed defs input (trace.lines input))
    (outcome : Outcome α) : Tells defs input { outcome := outcome, trace := trace }
      { outcome := outcome } { outcome := outcome, trace := trace } :=
  ⟨rfl, rfl, fun _ => h⟩

theorem of_halted (why : Halt) (trace : Trace) : Tells (α := α) defs input
    { outcome := .halted why, trace := trace } { outcome := .halted why }
    { outcome := .halted why, trace := trace } :=
  ⟨rfl, rfl, fun h => absurd rfl (h why)⟩

theorem after {trace : Trace} (h : Bracketed defs input (trace.lines input))
    (hr : Tells defs input told quiet r) :
    Tells defs input (told.after trace) (quiet.after .nil) (r.after trace) where
  told := by rw [hr.told]
  quiet := by
    rw [hr.quiet]
    rfl
  bracketed hend := Trace.bracketed_append h (hr.bracketed hend)

theorem onSuccess (h : Tells defs input told quiet r) {f f' f'' : α → Int → Run β}
    (hf : ∀ a next, r.outcome = .success a next →
      Tells defs input (f a next) (f' a next) (f'' a next)) :
    Tells defs input (told.onSuccess f) (quiet.onSuccess f') (r.onSuccess f'') := by
  obtain ⟨rfl, rfl, hlines⟩ := h
  obtain ⟨outcome, trace⟩ := told
  cases outcome with
  | success a next => exact (hf a next rfl).after (hlines (by simp))
  | miss | fatal => exact .of_trace (hlines (by simp)) _
  | halted why => exact .of_halted why trace

theorem onMiss (h : Tells defs input told quiet r) {f f' f'' : Int → Run α}
    (hf : ∀ next, r.outcome = .miss next → Tells defs input (f next) (f' next) (f'' next)) :
    Tells defs input (told.onMiss f) (quiet.onMiss f') (r.onMiss f'') := by
  obtain ⟨rfl, rfl, hlines⟩ := h
  obtain ⟨outcome, trace⟩ := told
  cases outcome with
  | miss next => exact (hf next rfl).after (hlines (by simp))
  | success | fatal => exact .of_trace (hlines (by simp)) _
  | halted why => exact .of_halted why trace

end Run.Tells

/-- All runs inside the text, before a writer, without names, and as they are, tell the same. -/
def Parser.Tells (defs : Definitions τ) (told quiet p : Parser α) : Prop :=
  ∀ (input : Input) (offset : Int), 0 ≤ offset → offset ≤ input.size →
    (told input offset).Tells defs input (quiet input offset) (p input offset)

namespace Parser.Tells

variable {defs : Definitions τ} {told quiet p : Parser α} {told' quiet' q : Parser β}

theorem refl {p : Parser α} (h : ∀ input offset, (p input offset).trace = .nil) :
    Tells defs p p p := fun input offset _ _ => .of_leaf (h input offset)

/-- Behind a match the text goes on. -/
theorem behind (hq : Tells defs told' quiet' q) (hw : p.Within .lax) {input : Input}
    {offset next : Int} {a : α} (h : 0 ≤ offset) (hsize : offset ≤ input.size)
    (hmatch : (p input offset).outcome = .success a next) :
    (told' input next).Tells defs input (quiet' input next) (q input next) := by
  obtain ⟨hle, hend⟩ := (hw input offset h hsize).matched a next hmatch
  exact hq input next (by omega) hend

theorem and (hp : Tells defs told quiet p) (hw : p.Within .lax) (hq : Tells defs told' quiet' q) :
    Tells defs (told.and told') (quiet.and quiet') (p.and q) := by
  intro input offset h hsize
  refine (hp input offset h hsize).onSuccess fun a middle hmatch => ?_
  exact (hq.behind hw h hsize hmatch).onSuccess fun b next _ => .of_leaf rfl

theorem map (hp : Tells defs told quiet p) (f : α → β) :
    Tells defs (told.map f) (quiet.map f) (p.map f) :=
  fun input offset h hsize => (hp input offset h hsize).onSuccess fun _ _ _ => .of_leaf rfl

theorem mapErr (hp : Tells defs told quiet p) (f : α → Except Error β) :
    Tells defs (told.mapErr f) (quiet.mapErr f) (p.mapErr f) := by
  intro input offset h hsize
  refine (hp input offset h hsize).onSuccess fun a next _ => .of_leaf ?_
  split
  · rfl
  · exact Run.ofExcept_trace fun _ => rfl

theorem filter (hp : Tells defs told quiet p) (condition : α → Bool) :
    Tells defs (told.filter condition) (quiet.filter condition) (p.filter condition) := by
  intro input offset h hsize
  refine (hp input offset h hsize).onSuccess fun a next _ => .of_leaf ?_
  split <;> rfl

theorem flatMap (hp : Tells defs told quiet p) (hw : p.Within .lax) {f f' f'' : α → Parser β}
    (hf : ∀ a, Tells defs (f a) (f' a) (f'' a)) :
    Tells defs (told.flatMap f) (quiet.flatMap f') (p.flatMap f'') := by
  intro input offset h hsize
  refine (hp input offset h hsize).onSuccess fun a middle hmatch => ?_
  exact ((hf a).behind hw h hsize hmatch).onSuccess fun b next _ => .of_leaf rfl

theorem or {told' quiet' q : Parser α} (hp : Tells defs told quiet p)
    (hq : Tells defs told' quiet' q) :
    Tells defs (told.or told') (quiet.or quiet') (p.or q) := by
  intro input offset h hsize
  refine (hp input offset h hsize).onMiss fun missed _ => ?_
  exact (hq input offset h hsize).onMiss fun other _ => .of_leaf rfl

theorem optional (hp : Tells defs told quiet p) (default : α) :
    Tells defs (told.optional default) (quiet.optional default) (p.optional default) :=
  fun input offset h hsize => (hp input offset h hsize).onMiss fun _ _ => .of_leaf rfl

theorem lookahead (hp : Tells defs told quiet p) :
    Tells defs told.lookahead quiet.lookahead p.lookahead :=
  fun input offset h hsize => (hp input offset h hsize).onSuccess fun _ _ _ => .of_leaf rfl

theorem not (hp : Tells defs told quiet p) : Tells defs told.not quiet.not p.not := by
  intro input offset h hsize
  obtain ⟨htold, hquiet, hlines⟩ := hp input offset h hsize
  unfold Parser.not
  rw [htold, hquiet]
  dsimp only
  cases houtcome : (p input offset).outcome with
  | success | miss | fatal => exact .of_trace (hlines (by simp [houtcome])) _
  | halted why => exact .of_halted why _

theorem commit (hp : Tells defs told quiet p) (diagnostic : Diagnostic) :
    Tells defs (told.commit diagnostic) (quiet.commit diagnostic) (p.commit diagnostic) :=
  fun input offset h hsize =>
    (hp input offset h hsize).onMiss fun _ _ => .of_leaf (Run.ofExcept_trace fun _ => rfl)

theorem named (hp : Tells defs told quiet p) (hw : p.Within .lax) {t : Term τ α} {depth : Nat}
    (hparser : defs.parserAt depth t = p) (name : Bytes) :
    Tells defs (told.told name) quiet (p.named name) := by
  intro input offset h hsize
  obtain ⟨htold, hquiet, hlines⟩ := hp input offset h hsize
  refine ⟨?_, hquiet, fun hend => ?_⟩
  · rw [← Parser.told_eq hw h hsize]
    unfold Parser.told Parser.named
    rw [htold]
  · obtain ⟨near, hnear⟩ := input.near_isOk h
    obtain ⟨verdict, hverdict⟩ := (hw input offset h hsize).exists_verdict h hend
    have hrun : defs.parserAt depth t input offset = p input offset := by rw [hparser]
    have hbracketed : Bracketed defs input
        ((input.label name offset ++ " " ++ near ++ "\n") ::
          ((p input offset).trace.lines input ++
            [input.label name offset ++ " " ++ verdict ++ "\n"])) :=
      .named hrun rfl (hlines hend) hnear hverdict
    rw [← Trace.entryLine_eq hnear, ← Trace.exitLine_eq hverdict] at hbracketed
    exact hbracketed

theorem sequenceFrom {n : Nat} {told quiet p : Fin n → Parser α}
    (hp : ∀ i, Tells defs (told i) (quiet i) (p i)) (hw : ∀ i, (p i).Within .lax)
    (values : List α) : Tells defs (Parser.sequenceFrom values (List.ofFn told))
      (Parser.sequenceFrom values (List.ofFn quiet))
      (Parser.sequenceFrom values (List.ofFn p)) := by
  induction n generalizing values with
  | zero =>
    simp only [List.ofFn_zero]
    exact .refl fun _ _ => rfl
  | succ n ih =>
    simp only [List.ofFn_succ]
    intro input offset h hsize
    refine (hp 0 input offset h hsize).onSuccess fun a next hmatch => ?_
    have hrest := ih (fun i => hp i.succ) (fun i => hw i.succ) (a :: values)
    exact hrest.behind (hw 0) h hsize hmatch

theorem oneOfFrom {n : Nat} {told quiet p : Fin n → Parser α}
    (hp : ∀ i, Tells defs (told i) (quiet i) (p i)) (furthest : Int) :
    Tells defs (Parser.oneOfFrom furthest (List.ofFn told))
      (Parser.oneOfFrom furthest (List.ofFn quiet))
      (Parser.oneOfFrom furthest (List.ofFn p)) := by
  induction n generalizing furthest with
  | zero =>
    simp only [List.ofFn_zero]
    exact .refl fun _ _ => rfl
  | succ n ih =>
    simp only [List.ofFn_succ]
    intro input offset h hsize
    refine (hp 0 input offset h hsize).onMiss fun missed _ => ?_
    exact ih (fun i => hp i.succ) _ input offset h hsize

theorem oneOf {n : Nat} {told quiet p : Fin n → Parser α}
    (hp : ∀ i, Tells defs (told i) (quiet i) (p i)) :
    Tells defs (Parser.oneOf (List.ofFn told)) (Parser.oneOf (List.ofFn quiet))
      (Parser.oneOf (List.ofFn p)) :=
  fun input offset h hsize => oneOfFrom hp offset input offset h hsize

theorem repeatExactly (hp : Tells defs told quiet p) (hw : p.Within .lax)
    {rest rest' rest'' : List α → Parser (List α)}
    (hrest : ∀ values, Tells defs (rest values) (rest' values) (rest'' values)) (n : Nat)
    (values : List α) : Tells defs (Parser.repeatExactly told rest n values)
      (Parser.repeatExactly quiet rest' n values) (Parser.repeatExactly p rest'' n values) := by
  induction n generalizing values with
  | zero => exact hrest values
  | succ n ih =>
    intro input offset h hsize
    refine (hp input offset h hsize).onSuccess fun a next hmatch => ?_
    exact (ih (a :: values)).behind hw h hsize hmatch

/-- The traces so far stand in an argument; without names there are none. -/
theorem repeatUpTo (hp : Tells defs told quiet p) (hw : p.Within .lax) {input : Input} (n : Nat)
    (values : List α) {trace : Trace} {offset : Int} (h : 0 ≤ offset) (hsize : offset ≤ input.size)
    (htrace : Bracketed defs input (trace.lines input)) :
    (Parser.repeatUpTo told input n values trace offset).Tells defs input
      (Parser.repeatUpTo quiet input n values .nil offset)
      (Parser.repeatUpTo p input n values trace offset) := by
  induction n generalizing values trace offset with
  | zero => exact .of_trace htrace _
  | succ n ih =>
    obtain ⟨htold, hquiet, hlines⟩ := hp input offset h hsize
    unfold Parser.repeatUpTo
    rw [htold, hquiet]
    dsimp only
    cases houtcome : (p input offset).outcome with
    | halted why => exact .of_halted why _
    | success a next =>
      obtain ⟨hle, hend⟩ := (hw input offset h hsize).matched a next houtcome
      have hmore := Trace.bracketed_append htrace (hlines (by simp [houtcome]))
      exact ih (a :: values) (by omega) hend hmore
    | miss | fatal =>
      exact .of_trace (Trace.bracketed_append htrace (hlines (by simp [houtcome]))) _

theorem repeatMany (hp : Tells defs told quiet p) (hw : p.Within .lax) {input : Input} (fuel : Nat)
    (values : List α) {trace : Trace} {offset : Int} (h : 0 ≤ offset) (hsize : offset ≤ input.size)
    (htrace : Bracketed defs input (trace.lines input)) :
    (Parser.repeatMany told input fuel values trace offset).Tells defs input
      (Parser.repeatMany quiet input fuel values .nil offset)
      (Parser.repeatMany p input fuel values trace offset) := by
  induction fuel generalizing values trace offset with
  | zero => exact .of_halted .outOfFuel _
  | succ fuel ih =>
    obtain ⟨htold, hquiet, hlines⟩ := hp input offset h hsize
    unfold Parser.repeatMany
    rw [htold, hquiet]
    dsimp only
    cases houtcome : (p input offset).outcome with
    | halted why => exact .of_halted why _
    | success a next =>
      obtain ⟨hle, hend⟩ := (hw input offset h hsize).matched a next houtcome
      have hmore := Trace.bracketed_append htrace (hlines (by simp [houtcome]))
      dsimp only
      split
      · exact .of_trace hmore _
      · exact ih (a :: values) (by omega) hend hmore
    | miss | fatal =>
      exact .of_trace (Trace.bracketed_append htrace (hlines (by simp [houtcome]))) _

theorem repeated (hp : Tells defs told quiet p) (hw : p.Within .lax) (bounds : Bounds) :
    Tells defs (told.repeated bounds) (quiet.repeated bounds) (p.repeated bounds) := by
  intro input offset h hsize
  rw [Parser.repeated_eq, Parser.repeated_eq, Parser.repeated_eq]
  split
  · refine repeatExactly hp hw (fun values input next hnext hend => ?_) _ [] input offset h hsize
    unfold Parser.further
    split
    · exact repeatMany hp hw _ values hnext hend .nil
    · exact repeatUpTo hp hw _ values hnext hend .nil
  · exact .of_leaf rfl

end Parser.Tells

theorem Term.teller_tells {defs : Definitions τ} {depth : Nat} {refs refs' : (i : ι) → Parser (τ i)}
    (h : ∀ i, Parser.Tells defs (refs i) (refs' i) (defs.refsAt depth i)) (t : Term τ α) :
    Parser.Tells defs (t.teller true refs) (t.teller false refs')
      (t.parser (defs.refsAt depth)) := by
  have hw : ∀ {α : Type} (t : Term τ α), (t.parser (defs.refsAt depth)).Within .lax := by
    intro α t
    rw [← defs.parserAt_eq]
    exact defs.parserAt_within_lax depth t
  induction t with
  | satisfy condition =>
    refine .refl fun input offset => Run.ofExcept_trace fun found => ?_
    split
    · rfl
    · split <;> rfl
  | literal text =>
    refine .refl fun input offset => Run.ofExcept_trace fun place => ?_
    split <;> rfl
  | pattern r =>
    refine .refl fun input offset => Run.ofExcept_trace fun place => ?_
    split <;> rfl
  | atEnd =>
    refine .refl fun input offset => ?_
    change (Parser.atEnd input offset).trace = .nil
    unfold Parser.atEnd
    split <;> rfl
  | always value => exact .refl fun _ _ => rfl
  | never => exact .refl fun _ _ => rfl
  | fault f => exact .refl fun _ _ => rfl
  | and p q ihp ihq => exact ihp.and (hw p) ihq
  | sequence n ps ih => exact .sequenceFrom ih (fun i => hw (ps i)) []
  | map f p ih => exact ih.map f
  | mapErr f p ih => exact ih.mapErr f
  | filter condition p ih => exact ih.filter condition
  | flatMap p f ihp ihf => exact ihp.flatMap (hw p) ihf
  | or p q ihp ihq => exact ihp.or ihq
  | oneOf n ps ih => exact .oneOf ih
  | repeated bounds p ih => exact ih.repeated (hw p) bounds
  | optional default p ih => exact ih.optional default
  | lookahead p ih => exact ih.lookahead
  | not p ih => exact ih.not
  | commit diagnostic p ih => exact ih.commit diagnostic
  | named name p ih => exact ih.named (hw p) (defs.parserAt_eq depth p) name
  | ref i => exact h i

/-- Without a writer names have no effect. -/
theorem Term.teller_false (refs : (i : ι) → Parser (τ i)) (t : Term τ α) :
    t.teller false refs = t.unnamed.parser refs := by
  induction t with
  | satisfy | literal | pattern | atEnd | always | never | fault | ref => rfl
  | and p q ihp ihq => exact congrArg₂ Parser.and ihp ihq
  | sequence n ps ih => exact congrArg (fun p => Parser.sequence (List.ofFn p)) (funext ih)
  | map f p ih => exact congrArg (Parser.map f) ih
  | mapErr f p ih => exact congrArg (Parser.mapErr f) ih
  | filter condition p ih => exact congrArg (Parser.filter condition) ih
  | flatMap p f ihp ihf => exact congrArg₂ Parser.flatMap ihp (funext ihf)
  | or p q ihp ihq => exact congrArg₂ Parser.or ihp ihq
  | oneOf n ps ih => exact congrArg (fun p => Parser.oneOf (List.ofFn p)) (funext ih)
  | repeated bounds p ih => exact congrArg (Parser.repeated bounds) ih
  | optional default p ih => exact congrArg (Parser.optional default) ih
  | lookahead p ih => exact congrArg Parser.lookahead ih
  | not p ih => exact congrArg Parser.not ih
  | commit diagnostic p ih => exact congrArg (Parser.commit diagnostic) ih
  | named name p ih => exact (if_neg Bool.false_ne_true).trans ih

theorem Settings.foldlM_trace (requests : List Setting) (s : Settings) :
    requests.foldlM apply { s with trace := true } =
      (requests.foldlM apply s).map fun s => { s with trace := true } := by
  induction requests generalizing s with
  | nil => rfl
  | cons request requests ih =>
    cases request with
    | filename name => exact ih { s with filename := name }
    | allowTrailing => exact ih { s with allowTrailing := true }
    | trace => exact ih { s with trace := true }
    | failing error => rfl

/-- A request for a trace in front of others adds the trace and nothing else. -/
theorem Parser.evaluate_trace (p : Parser α) (text : Bytes) (requests : List Setting) :
    (p.evaluate text (.trace :: requests)).result = (p.evaluate text requests).result ∧
      ∀ settings, Settings.ofList requests = .ok settings →
        let input := Input.ofBytes settings.filename text
        (p.evaluate text (.trace :: requests)).trace = ((p input 0).trace.lines input).flatten := by
  have hlist : Settings.ofList (.trace :: requests) =
      (Settings.ofList requests).map fun s => { s with trace := true } :=
    Settings.foldlM_trace requests {}
  unfold evaluate
  rw [hlist]
  cases Settings.ofList requests with
  | error error => exact ⟨rfl, nofun⟩
  | ok settings =>
    refine ⟨rfl, ?_⟩
    intro settings' heq
    cases heq
    rfl

/-- Only the outcomes of runs inside the text matter for the result of an evaluation. -/
theorem Parser.evaluate_congr {p q : Parser α} {text : Bytes}
    (h : ∀ filename, (p (Input.ofBytes filename text) 0).outcome =
      (q (Input.ofBytes filename text) 0).outcome) (requests : List Setting) :
    (p.evaluate text requests).result = (q.evaluate text requests).result := by
  unfold evaluate
  split
  · rfl
  · dsimp only
    rw [h]

namespace Definitions

variable (defs : Definitions τ)

theorem toldRefsAt_tells (depth : Nat) (i : ι) :
    Parser.Tells defs (defs.toldRefsAt true depth i) (defs.toldRefsAt false depth i)
      (defs.refsAt depth i) := by
  induction depth generalizing i with
  | zero => exact fun _ _ _ _ => .of_halted .outOfFuel .nil
  | succ depth ih =>
    simp only [toldRefsAt, refsAt]
    cases defs i with
    | none => exact .refl fun _ _ => rfl
    | some body =>
      dsimp only
      rw [parserAt_eq]
      exact body.teller_tells ih

theorem tellerAt_tells (depth : Nat) (t : Term τ α) :
    Parser.Tells defs (defs.tellerAt true depth t) (defs.tellerAt false depth t)
      (defs.parserAt depth t) := by
  rw [parserAt_eq]
  exact t.teller_tells (defs.toldRefsAt_tells depth)

theorem toldRefsAt_false (depth : Nat) :
    defs.toldRefsAt false depth = defs.unnamed.refsAt depth := by
  induction depth with
  | zero => rfl
  | succ depth ih =>
    funext i
    simp only [toldRefsAt, refsAt, unnamed]
    cases defs i with
    | none => rfl
    | some body =>
      simp only [Option.map_some]
      rw [parserAt_eq, ← ih]
      exact body.teller_false _

theorem tellerAt_false (depth : Nat) (t : Term τ α) :
    defs.tellerAt false depth t = defs.unnamed.parserAt depth t.unnamed := by
  rw [parserAt_eq, ← toldRefsAt_false]
  exact t.teller_false _

/-- Inside the text a run before a writer, a run without one and the run of the term without its
names have the same outcome; and so have evaluations. What is written is the trace, the lines of the
named calls of the journal in its order. If the run does not break down, then each named parser that
was run has one line in front of all that was written inside and one line behind that says what it
came to. -/
theorem tracing_is_transparent {t : Term τ α} {depth : Nat} {input : Input} {offset : Int}
    {r : Run α} (hr : defs.parserAt depth t input offset = r) (hstart : 0 ≤ offset)
    (hend : offset ≤ input.size) :
    defs.tellerAt true depth t input offset = r ∧
    defs.tellerAt false depth t input offset = { outcome := r.outcome } ∧
    defs.unnamed.parserAt depth t.unnamed input offset = { outcome := r.outcome } ∧
    ((∀ why, r.outcome ≠ .halted why) → Bracketed defs input (r.trace.lines input)) ∧
    r.trace.lines input =
      (defs.watcherAt depth t input offset).journal.flatMap (Event.lines input) ∧
    ∀ names text requests,
      ((defs.parser names t).evaluate text (.trace :: requests)).result =
        ((defs.parser names t).evaluate text requests).result ∧
      ((defs.unnamed.parser names t.unnamed).evaluate text requests).result =
        ((defs.parser names t).evaluate text requests).result ∧
      ∀ settings, Settings.ofList requests = .ok settings →
        let input := Input.ofBytes settings.filename text
        ((defs.parser names t).evaluate text (.trace :: requests)).trace =
          ((defs.tellerAt true (Definitions.depth names input) t input 0).trace.lines
            input).flatten := by
  subst hr
  obtain ⟨htold, hquiet, hlines⟩ := defs.tellerAt_tells depth t input offset hstart hend
  refine ⟨htold, hquiet, ?_, hlines, ?_, ?_⟩
  · rw [← tellerAt_false]
    exact hquiet
  · rw [← Event.flatMap_lines_named, (defs.watcherAt_shows depth t input offset).named]
    exact Trace.lines_eq_events _
  · intro names text requests
    obtain ⟨hresult, htrace⟩ := (defs.parser names t).evaluate_trace text requests
    refine ⟨hresult, Parser.evaluate_congr (fun filename => ?_) requests, ?_⟩
    · have hrun := defs.tellerAt_tells (Definitions.depth names (Input.ofBytes filename text)) t
        (Input.ofBytes filename text) 0 (Int.le_refl 0) (Int.natCast_nonneg _)
      unfold parser
      rw [← tellerAt_false, hrun.quiet]
    · intro settings hsettings
      have hrun := defs.tellerAt_tells
        (Definitions.depth names (Input.ofBytes settings.filename text)) t
        (Input.ofBytes settings.filename text) 0 (Int.le_refl 0) (Int.natCast_nonneg _)
      dsimp only
      rw [htrace settings hsettings, hrun.told]
      rfl

def namedLists : Definitions fun _ : Unit => Nat := fun i => (digitLists i).map (.named "list")

/-- An error inside the inner list closes both. -/
theorem tracing_is_transparent_namedLists :
    ∃ r e, namedLists.parserAt 3 (.ref ()) (Input.ofBytes [] "[1,[2") 0 = r ∧
      r.outcome = .fatal e ∧
      namedLists.tellerAt true 3 (.ref ()) (Input.ofBytes [] "[1,[2") 0 = r ∧
      Bracketed namedLists (Input.ofBytes [] "[1,[2") (r.trace.lines (Input.ofBytes [] "[1,[2")) ∧
      r.trace.lines (Input.ofBytes [] "[1,[2") =
        (["1:1 list \"[1,[2\"\n", "1:4 list \"[2\"\n", "1:4 list fatal: 1:6: expected ']'\n",
          "1:1 list fatal: 1:6: expected ']'\n"] : List Bytes) := by
  let r := namedLists.parserAt 3 (.ref ()) (Input.ofBytes [] "[1,[2") 0
  obtain ⟨e, he⟩ : ∃ e, r.outcome = .fatal e := ⟨_, rfl⟩
  obtain ⟨htold, _, _, hlines, _⟩ := namedLists.tracing_is_transparent (r := r) rfl
    (Int.le_refl 0) (Int.natCast_nonneg _)
  refine ⟨r, e, rfl, he, htold, hlines (by simp [he]), ?_⟩
  decide +kernel

end Definitions

end Backtrack
