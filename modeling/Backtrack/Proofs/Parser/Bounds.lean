import Backtrack.Evaluation
import Backtrack.Proofs.Parser.Agreement
import Backtrack.Proofs.Regex.Matching

/-!
# Offsets stay inside the text

A run that starts inside the text reports offsets between its start and the end of the text only,
so nothing is ever read outside. This holds of matches and misses without any condition. Of errors
and breakdowns it depends on the functions that a grammar brings along; what is asked of them is
`Term.Keeps`, for a `Contract` that says which breakdowns are tolerated and whether errors have to
speak of the input that was read.
-/

namespace Backtrack

/-- An error that does not know of which input it speaks. -/
def Error.Placeless (error : Error) : Prop := ∀ e, error.parseError? = some e → e.input = none

/-- What is promised about runs that end neither in a match nor in a miss. -/
structure Contract where
  /-- Errors speak of the input that was read, at an offset behind the start of the run. -/
  placed : Prop
  halts : Halt → Prop

/-- How a named run may end according to a trace. -/
def Exit.Within (input : Input) (offset : Int) : Exit → Prop
  | matched next | missed next => offset ≤ next ∧ next ≤ input.size
  | aborted _ | brokenDown => True

/-- All that a trace shows lies inside the text: the start of every named run, and behind it the
end of the match or the place of the miss. -/
def Trace.Within (input : Input) : Trace → Prop
  | nil => True
  | both s t => s.Within input ∧ t.Within input
  | named _ offset inner exit =>
    (0 ≤ offset ∧ offset ≤ input.size) ∧ inner.Within input ∧ exit.Within input offset

theorem Trace.Within.append {input : Input} {s t : Trace} (hs : s.Within input)
    (ht : t.Within input) : (s.append t).Within input := by
  cases s with
  | nil => exact ht
  | both | named =>
    cases t with
    | nil => exact hs
    | both | named => exact ⟨hs, ht⟩

/-- A run that stays between an offset and the end of the text, and keeps a contract. -/
structure Run.Within {α : Type} (c : Contract) (input : Input) (offset : Int) (r : Run α) :
    Prop where
  matched : ∀ value next, r.outcome = .success value next → offset ≤ next ∧ next ≤ input.size
  missed : ∀ next, r.outcome = .miss next → offset ≤ next ∧ next ≤ input.size
  aborted : c.placed → ∀ e, r.outcome = .fatal e →
    e.input = some input ∧ offset ≤ e.offset ∧ e.offset ≤ input.size
  broken : ∀ why, r.outcome = .halted why → c.halts why
  traced : r.trace.Within input

namespace Run.Within

variable {α β : Type} {c : Contract} {input : Input} {offset : Int}

theorem of_success {value : α} {next : Int} (h : offset ≤ next) (hsize : next ≤ input.size) :
    (Run.success value next).Within c input offset where
  matched := by
    rintro _ _ ⟨⟩
    exact ⟨h, hsize⟩
  missed := nofun
  aborted := nofun
  broken := nofun
  traced := trivial

theorem of_miss {next : Int} (h : offset ≤ next) (hsize : next ≤ input.size) :
    (Run.miss next : Run α).Within c input offset where
  matched := nofun
  missed := by
    rintro _ ⟨⟩
    exact ⟨h, hsize⟩
  aborted := nofun
  broken := nofun
  traced := trivial

theorem of_fatal {e : ParseError} (h : c.placed →
    e.input = some input ∧ offset ≤ e.offset ∧ e.offset ≤ input.size) :
    (Run.fatal e : Run α).Within c input offset where
  matched := nofun
  missed := nofun
  aborted := by
    rintro hplaced _ ⟨⟩
    exact h hplaced
  broken := nofun
  traced := trivial

theorem of_fault {f : Fault} (h : c.halts (.fault f)) :
    (Run.fault f : Run α).Within c input offset where
  matched := nofun
  missed := nofun
  aborted := nofun
  broken := by
    rintro _ ⟨⟩
    exact h
  traced := trivial

theorem mono {r : Run α} {offset' : Int} (h : r.Within c input offset') (hle : offset ≤ offset') :
    r.Within c input offset where
  matched value next hr := by
    have := h.matched value next hr
    omega
  missed next hr := by
    have := h.missed next hr
    omega
  aborted hplaced e hr := by
    obtain ⟨hinput, hlow, hhigh⟩ := h.aborted hplaced e hr
    exact ⟨hinput, by omega, hhigh⟩
  broken := h.broken
  traced := h.traced

theorem after {r : Run α} {trace : Trace} (h : r.Within c input offset)
    (htrace : trace.Within input) : (r.after trace).Within c input offset where
  matched := h.matched
  missed := h.missed
  aborted := h.aborted
  broken := h.broken
  traced := htrace.append h.traced

theorem onSuccess {r : Run α} {f : α → Int → Run β} (h : r.Within c input offset)
    (hf : ∀ a next, offset ≤ next → next ≤ input.size → (f a next).Within c input offset) :
    (r.onSuccess f).Within c input offset := by
  unfold Run.onSuccess
  split
  · rename_i a next hr
    have hnext := h.matched a next hr
    exact (hf a next hnext.1 hnext.2).after h.traced
  · rename_i next hr
    have hnext := h.missed next hr
    exact ⟨nofun, by rintro _ ⟨⟩; exact hnext, nofun, nofun, h.traced⟩
  · rename_i e hr
    exact ⟨nofun, nofun, by rintro hplaced _ ⟨⟩; exact h.aborted hplaced e hr, nofun, h.traced⟩
  · rename_i why hr
    exact ⟨nofun, nofun, nofun, by rintro _ ⟨⟩; exact h.broken why hr, h.traced⟩

theorem onMiss {r : Run α} {f : Int → Run α} (h : r.Within c input offset)
    (hf : ∀ next, offset ≤ next → next ≤ input.size → (f next).Within c input offset) :
    (r.onMiss f).Within c input offset := by
  unfold Run.onMiss
  split
  · rename_i next hr
    have hnext := h.missed next hr
    exact (hf next hnext.1 hnext.2).after h.traced
  · exact h

end Run.Within

namespace Input

variable (input : Input) {offset : Int}

theorem place?_eq (h : 0 ≤ offset) (hsize : offset ≤ input.size) :
    input.place? offset = .ok offset.toNat := by
  unfold place?
  rw [if_pos ⟨h, hsize⟩]

theorem near_isOk (h : 0 ≤ offset) : ∃ text, input.near offset = .ok text := by
  unfold near
  split
  · exact ⟨_, rfl⟩
  · rw [if_neg (by omega)]
    exact ⟨_, rfl⟩

theorem char?_eq (h : 0 ≤ offset) (hsize : offset < input.size) :
    input.char? offset = .ok (Utf8.at? input.text offset.toNat) := by
  unfold char?
  rw [if_neg (by omega), if_neg (by omega)]

theorem length_slice (lo hi : Nat) : (input.slice lo hi).length = min hi input.size - lo := by
  simp only [slice, Array.length_toList, Array.size_extract, size]

/-- An error is placed where it is asked for, unless it has a place of its own. -/
theorem annotate_placeless (h : 0 ≤ offset) {error : Option Error}
    (herror : ∀ e ∈ error, e.Placeless) :
    ∃ e, input.annotate offset error = .ok e ∧ e.input = some input ∧ e.offset = offset := by
  unfold annotate
  split
  · obtain ⟨text, htext⟩ := input.near_isOk h
    exact ⟨_, by rw [htext]; rfl, rfl, rfl⟩
  · rename_i error
    split
    · exact ⟨_, rfl, rfl, rfl⟩
    · rename_i parseError hparse
      split
      · rename_i other hother
        rw [herror error rfl parseError hparse] at hother
        cases hother
      · exact ⟨_, rfl, rfl, rfl⟩

theorem annotate_isOk (h : 0 ≤ offset) (error : Option Error) :
    ∃ e, input.annotate offset error = .ok e := by
  unfold annotate
  split
  · obtain ⟨text, htext⟩ := input.near_isOk h
    exact ⟨_, by rw [htext]; rfl⟩
  · split
    · exact ⟨_, rfl⟩
    · split <;> exact ⟨_, rfl⟩

end Input

/-- Behind the start of the text there is always something to report. -/
theorem Outcome.exists_report {α : Type} {input : Input} {offset : Int} (h : 0 ≤ offset)
    (trailing : Bool) : ∃ near, (judge.report input offset trailing :
      Except Halt (Except Error α)) =
        .ok (.error (.unexpected (input.position offset) near trailing)) := by
  obtain ⟨near, hnear⟩ := input.near_isOk h
  refine ⟨near, ?_⟩
  unfold judge.report Input.unexpected
  rw [hnear]
  rfl

theorem Bounds.holdable_any : Bounds.any.Holdable := nofun

/-- A diagnostic that keeps a contract: asked about an offset of the text, it breaks down in
tolerated ways only, and what it says has no place of its own. -/
def Diagnostic.Keeps (c : Contract) (diagnostic : Diagnostic) : Prop :=
  ∀ (input : Input) (offset : Int), 0 ≤ offset → offset ≤ input.size →
    (∀ f, diagnostic input offset = .error f → c.halts (.fault f)) ∧
    (c.placed → ∀ error, diagnostic input offset = .ok error → ∀ e ∈ error, e.Placeless)

namespace Parser

variable {α β : Type} {c : Contract}

/-- All runs of a parser that start inside the text stay there, and keep a contract. -/
def Within (c : Contract) (p : Parser α) : Prop :=
  ∀ (input : Input) (offset : Int), 0 ≤ offset → offset ≤ input.size →
    (p input offset).Within c input offset

/-- The matches of a repetition behind the mandatory ones. -/
def further (bounds : Bounds) (p : Parser α) (values : List α) : Parser (List α) :=
  fun input next =>
    match bounds.most with
    | none => repeatMany p input ((input.size - next).toNat + 1) values .nil next
    | some most => repeatUpTo p input (most - bounds.least) values .nil next

theorem repeated_eq (bounds : Bounds) (p : Parser α) (input : Input) (offset : Int) :
    p.repeated bounds input offset = if bounds.Holdable then
        repeatExactly p (further bounds p) bounds.least [] input offset
      else .fault .unholdable := rfl

theorem Within.after {p : Parser α} (hp : p.Within c) {input : Input} {offset next : Int}
    (h : 0 ≤ offset) (hle : offset ≤ next) (hsize : next ≤ input.size) :
    (p input next).Within c input offset :=
  (hp input next (by omega) hsize).mono hle

theorem within_satisfy (condition : Char → Bool) : (satisfy condition).Within c := by
  intro input offset h hsize
  unfold satisfy
  rcases Int.lt_or_le offset input.size with hlt | hle
  · rw [input.char?_eq h hlt]
    dsimp only [Run.ofExcept]
    split
    · exact .of_miss (Int.le_refl offset) hsize
    · rename_i ch width hat
      have hwidth := Utf8.at?_width hat
      have hsize' : input.text.size = input.size := rfl
      split
      · exact .of_success (by omega) (by omega)
      · exact .of_miss (Int.le_refl offset) hsize
  · unfold Input.char?
    rw [if_pos hle]
    exact .of_miss (Int.le_refl offset) hsize

theorem within_literal (text : Bytes) : (literal text).Within c := by
  intro input offset h hsize
  unfold literal
  rw [input.place?_eq h hsize]
  dsimp only [Run.ofExcept]
  split
  · rename_i heq
    have hlength := congrArg List.length heq
    rw [Input.length_slice] at hlength
    exact .of_success (by omega) (by omega)
  · exact .of_miss (Int.le_refl offset) hsize

theorem within_pattern (r : Regex) : (pattern r).Within c := by
  intro input offset h hsize
  unfold pattern
  rw [input.place?_eq h hsize]
  dsimp only [Run.ofExcept]
  split
  · rename_i stop hstop
    have hsize' : input.text.size = input.size := rfl
    have hbounds := Regex.findEnd?_bounds (by omega) hstop
    exact .of_success (by omega) (by omega)
  · exact .of_miss (Int.le_refl offset) hsize

theorem within_atEnd : atEnd.Within c := by
  intro input offset h hsize
  unfold atEnd
  split
  · exact .of_success (Int.le_refl offset) hsize
  · exact .of_miss (Int.le_refl offset) hsize

theorem within_always (value : α) : (always value).Within c :=
  fun _ offset _ hsize => .of_success (Int.le_refl offset) hsize

theorem within_never : (never : Parser α).Within c :=
  fun _ offset _ hsize => .of_miss (Int.le_refl offset) hsize

theorem within_fault {f : Fault} (h : c.halts (.fault f)) : (fault f : Parser α).Within c :=
  fun _ _ _ _ => .of_fault h

namespace Within

variable {p : Parser α} {q : Parser β}

theorem and (hp : p.Within c) (hq : q.Within c) : (p.and q).Within c := by
  intro input offset h hsize
  refine (hp input offset h hsize).onSuccess fun a middle hmiddle hmsize => ?_
  refine (hq.after h hmiddle hmsize).onSuccess fun b next hnext hnsize => ?_
  exact .of_success hnext hnsize

theorem sequenceFrom {ps : List (Parser α)} (hps : ∀ p ∈ ps, p.Within c) (values : List α) :
    (Parser.sequenceFrom values ps).Within c := by
  induction ps generalizing values with
  | nil => exact fun _ offset _ hsize => .of_success (Int.le_refl offset) hsize
  | cons p ps ih =>
    intro input offset h hsize
    have hp := hps p List.mem_cons_self
    refine (hp input offset h hsize).onSuccess fun a next hnext hnsize => ?_
    exact (ih (fun q hq => hps q (List.mem_cons_of_mem p hq)) (a :: values)).after h hnext hnsize

theorem map (hp : p.Within c) (f : α → β) : (p.map f).Within c := fun input offset h hsize =>
  (hp input offset h hsize).onSuccess fun _ _ hnext hnsize => .of_success hnext hnsize

theorem mapErr (hp : p.Within c) {f : α → Except Error β}
    (hf : c.placed → ∀ a error, f a = .error error → error.Placeless) :
    (p.mapErr f).Within c := by
  intro input offset h hsize
  refine (hp input offset h hsize).onSuccess fun a next hnext hnsize => ?_
  cases hfa : f a with
  | ok b => exact .of_success hnext hnsize
  | error error =>
    obtain ⟨e, he⟩ := input.annotate_isOk h (some error)
    simp only [he, Run.ofExcept]
    refine .of_fatal fun hplaced => ?_
    have hless : ∀ e ∈ some error, e.Placeless := by
      rintro _ ⟨⟩
      exact hf hplaced a error hfa
    obtain ⟨e', he', hinput, hoffset⟩ := input.annotate_placeless h hless
    rw [he] at he'
    cases he'
    exact ⟨hinput, by omega, by omega⟩

theorem filter (hp : p.Within c) (condition : α → Bool) : (p.filter condition).Within c := by
  intro input offset h hsize
  refine (hp input offset h hsize).onSuccess fun a next hnext hnsize => ?_
  split
  · exact .of_success hnext hnsize
  · exact .of_miss (Int.le_refl offset) hsize

theorem flatMap (hp : p.Within c) {f : α → Parser β} (hf : ∀ a, (f a).Within c) :
    (p.flatMap f).Within c := by
  intro input offset h hsize
  refine (hp input offset h hsize).onSuccess fun a middle hmiddle hmsize => ?_
  refine ((hf a).after h hmiddle hmsize).onSuccess fun b next hnext hnsize => ?_
  exact .of_success hnext hnsize

theorem or {q : Parser α} (hp : p.Within c) (hq : q.Within c) : (p.or q).Within c := by
  intro input offset h hsize
  refine (hp input offset h hsize).onMiss fun missed hmissed hmsize => ?_
  refine (hq input offset h hsize).onMiss fun other hother hosize => ?_
  split
  · exact .of_miss hmissed hmsize
  · exact .of_miss hother hosize

theorem oneOfFrom {ps : List (Parser α)} (hps : ∀ p ∈ ps, p.Within c) {input : Input}
    {offset : Int} (h : 0 ≤ offset) (hsize : offset ≤ input.size) {furthest : Int}
    (hf : offset ≤ furthest) (hfsize : furthest ≤ input.size) :
    (Parser.oneOfFrom furthest ps input offset).Within c input offset := by
  induction ps generalizing furthest with
  | nil => exact .of_miss hf hfsize
  | cons p ps ih =>
    have hp := hps p List.mem_cons_self
    refine (hp input offset h hsize).onMiss fun missed hmissed hmsize => ?_
    refine ih (fun q hq => hps q (List.mem_cons_of_mem p hq)) ?_ ?_
    all_goals split <;> assumption

theorem oneOf {ps : List (Parser α)} (hps : ∀ p ∈ ps, p.Within c) :
    (Parser.oneOf ps).Within c := fun _ offset h hsize =>
  oneOfFrom hps h hsize (Int.le_refl offset) hsize

theorem repeatExactly (hp : p.Within c) {rest : List α → Parser (List α)}
    (hrest : ∀ values, (rest values).Within c) (n : Nat) (values : List α) :
    (Parser.repeatExactly p rest n values).Within c := by
  induction n generalizing values with
  | zero => exact hrest values
  | succ n ih =>
    intro input offset h hsize
    refine (hp input offset h hsize).onSuccess fun a next hnext hnsize => ?_
    exact (ih (a :: values)).after h hnext hnsize

theorem of_values {input : Input} {offset next : Int} {values : List α} {trace : Trace}
    (hle : offset ≤ next) (hsize : next ≤ input.size) (htrace : trace.Within input) :
    Run.Within c input offset
      { outcome := .success values.reverse next, trace := trace : Run (List α) } :=
  ⟨by rintro _ _ ⟨⟩; exact ⟨hle, hsize⟩, nofun, nofun, nofun, htrace⟩

theorem repeatUpTo (hp : p.Within c) {input : Input} {start : Int} (h : 0 ≤ start) (n : Nat) :
    ∀ (values : List α) {trace : Trace} {offset : Int}, trace.Within input → start ≤ offset →
      offset ≤ input.size →
      (Parser.repeatUpTo p input n values trace offset).Within c input start := by
  induction n with
  | zero => exact fun values _ _ htrace hle hsize => of_values hle hsize htrace
  | succ n ih =>
    intro values trace offset htrace hle hsize
    have hrun := hp.after h hle hsize
    have htrace := htrace.append hrun.traced
    unfold Parser.repeatUpTo
    dsimp only
    split
    · rename_i a next hr
      obtain ⟨hnext, hnsize⟩ := hrun.matched a next hr
      exact ih (a :: values) htrace hnext hnsize
    · exact of_values hle hsize htrace
    · rename_i e hr
      exact ⟨nofun, nofun, by rintro hplaced _ ⟨⟩; exact hrun.aborted hplaced e hr, nofun, htrace⟩
    · rename_i why hr
      exact ⟨nofun, nofun, nofun, by rintro _ ⟨⟩; exact hrun.broken why hr, htrace⟩

/-- Every further match of an unbounded repetition consumes something, so as many are enough as
there are bytes left. -/
theorem repeatMany (hp : p.Within c) {input : Input} {start : Int} (h : 0 ≤ start) (fuel : Nat) :
    ∀ (values : List α) {trace : Trace} {offset : Int}, trace.Within input → start ≤ offset →
      offset ≤ input.size → (input.size - offset).toNat < fuel →
      (Parser.repeatMany p input fuel values trace offset).Within c input start := by
  induction fuel with
  | zero => exact fun _ _ _ _ _ _ hfuel => absurd hfuel (Nat.not_lt_zero _)
  | succ fuel ih =>
    intro values trace offset htrace hle hsize hfuel
    have hrun := hp input offset (by omega) hsize
    have htrace := htrace.append hrun.traced
    unfold Parser.repeatMany
    dsimp only
    split
    · rename_i a next hr
      obtain ⟨hnext, hnsize⟩ := hrun.matched a next hr
      -- A match that consumes nothing ends the repetition, any other one leaves fewer bytes.
      split
      · exact of_values hle hsize htrace
      · exact ih (a :: values) htrace (by omega) hnsize (by omega)
    · exact of_values hle hsize htrace
    · rename_i e hr
      exact ⟨nofun, nofun,
        by rintro hplaced _ ⟨⟩; exact (hrun.mono hle).aborted hplaced e hr, nofun, htrace⟩
    · rename_i why hr
      exact ⟨nofun, nofun, nofun, by rintro _ ⟨⟩; exact hrun.broken why hr, htrace⟩

theorem further (hp : p.Within c) (bounds : Bounds) (values : List α) :
    (Parser.further bounds p values).Within c := by
  intro input next hnext hnsize
  unfold Parser.further
  split
  · exact repeatMany hp hnext _ values trivial (Int.le_refl next) hnsize (by omega)
  · exact repeatUpTo hp hnext _ values trivial (Int.le_refl next) hnsize

theorem repeated (hp : p.Within c) {bounds : Bounds}
    (hbounds : bounds.Holdable ∨ c.halts (.fault .unholdable)) :
    (p.repeated bounds).Within c := by
  intro input offset h hsize
  rw [repeated_eq]
  split
  · exact repeatExactly hp (further hp bounds) _ [] input offset h hsize
  · rename_i hheld
    exact .of_fault (hbounds.resolve_left hheld)

theorem optional (hp : p.Within c) (default : α) : (p.optional default).Within c :=
  fun input offset h hsize =>
    (hp input offset h hsize).onMiss fun _ _ _ => .of_success (Int.le_refl offset) hsize

theorem lookahead (hp : p.Within c) : p.lookahead.Within c := fun input offset h hsize =>
  (hp input offset h hsize).onSuccess fun _ _ _ _ => .of_success (Int.le_refl offset) hsize

theorem not (hp : p.Within c) : p.not.Within c := by
  intro input offset h hsize
  have hrun := hp input offset h hsize
  unfold Parser.not
  dsimp only
  split
  · exact ⟨nofun, by rintro _ ⟨⟩; exact ⟨Int.le_refl offset, hsize⟩, nofun, nofun, hrun.traced⟩
  · exact ⟨by rintro _ _ ⟨⟩; exact ⟨Int.le_refl offset, hsize⟩, nofun, nofun, nofun, hrun.traced⟩
  · rename_i e hr
    exact ⟨nofun, nofun, by rintro hplaced _ ⟨⟩; exact hrun.aborted hplaced e hr, nofun,
      hrun.traced⟩
  · rename_i why hr
    exact ⟨nofun, nofun, nofun, by rintro _ ⟨⟩; exact hrun.broken why hr, hrun.traced⟩

theorem commit (hp : p.Within c) {diagnostic : Diagnostic} (hd : diagnostic.Keeps c) :
    (p.commit diagnostic).Within c := by
  intro input offset h hsize
  refine (hp input offset h hsize).onMiss fun missed hmissed hmsize => ?_
  have hm : 0 ≤ missed := by omega
  obtain ⟨hfault, hless⟩ := hd input missed hm hmsize
  cases hsaid : diagnostic input missed with
  | error f => exact .of_fault (hfault f hsaid)
  | ok error =>
    obtain ⟨e, he⟩ := input.annotate_isOk hm error
    simp only [bind, Except.bind, he, Run.ofExcept]
    refine .of_fatal fun hplaced => ?_
    obtain ⟨e', he', hinput, hoffset⟩ := input.annotate_placeless hm (hless hplaced error hsaid)
    rw [he] at he'
    cases he'
    exact ⟨hinput, by omega, by omega⟩

theorem named (hp : p.Within c) (name : Bytes) : (p.named name).Within c := by
  intro input offset h hsize
  have hrun := hp input offset h hsize
  refine ⟨hrun.matched, hrun.missed, hrun.aborted, hrun.broken, ⟨h, hsize⟩, hrun.traced, ?_⟩
  cases hr : (p input offset).outcome with
  | success a next => exact hrun.matched a next hr
  | miss next => exact hrun.missed next hr
  | fatal | halted => trivial

end Within

end Parser

namespace Term

variable {ι : Type} {τ : ι → Type} {α : Type} {c : Contract}

/-- What is asked of a term over some definitions for its runs to keep a contract. -/
def Keeps (c : Contract) (defs : Definitions τ) : {α : Type} → Term τ α → Prop
  | _, satisfy _ | _, literal _ | _, pattern _ | _, atEnd | _, always _ | _, never => True
  | _, fault f => c.halts (.fault f)
  | _, and p q => p.Keeps c defs ∧ q.Keeps c defs
  | _, sequence _ ps => ∀ i, (ps i).Keeps c defs
  | _, map _ p => p.Keeps c defs
  | _, mapErr f p =>
    (c.placed → ∀ a error, f a = .error error → error.Placeless) ∧ p.Keeps c defs
  | _, filter _ p => p.Keeps c defs
  | _, flatMap p f => p.Keeps c defs ∧ ∀ a, (f a).Keeps c defs
  | _, or p q => p.Keeps c defs ∧ q.Keeps c defs
  | _, oneOf _ ps => ∀ i, (ps i).Keeps c defs
  | _, repeated bounds p =>
    (bounds.Holdable ∨ c.halts (.fault .unholdable)) ∧ p.Keeps c defs
  | _, optional _ p => p.Keeps c defs
  | _, lookahead p => p.Keeps c defs
  | _, not p => p.Keeps c defs
  | _, commit diagnostic p => diagnostic.Keeps c ∧ p.Keeps c defs
  | _, named _ p => p.Keeps c defs
  | _, ref i => defs i = none → c.halts (.fault .undefinedReference)

theorem parser_within {defs : Definitions τ} {refs : (i : ι) → Parser (τ i)}
    (hrefs : ∀ i, (defs i = none → c.halts (.fault .undefinedReference)) → (refs i).Within c)
    {t : Term τ α} (ht : t.Keeps c defs) : (t.parser refs).Within c := by
  induction t with
  | satisfy condition => exact Parser.within_satisfy condition
  | literal text => exact Parser.within_literal text
  | pattern r => exact Parser.within_pattern r
  | atEnd => exact Parser.within_atEnd
  | always value => exact Parser.within_always value
  | never => exact Parser.within_never
  | fault f => exact Parser.within_fault ht
  | and p q ihp ihq => exact (ihp ht.1).and (ihq ht.2)
  | sequence n ps ih =>
    refine .sequenceFrom (fun p hp => ?_) []
    obtain ⟨i, rfl⟩ := List.mem_ofFn.mp hp
    exact ih i (ht i)
  | map f p ih => exact (ih ht).map f
  | mapErr f p ih => exact (ih ht.2).mapErr ht.1
  | filter condition p ih => exact (ih ht).filter condition
  | flatMap p f ihp ihf => exact (ihp ht.1).flatMap fun a => ihf a (ht.2 a)
  | or p q ihp ihq => exact (ihp ht.1).or (ihq ht.2)
  | oneOf n ps ih =>
    refine .oneOf fun p hp => ?_
    obtain ⟨i, rfl⟩ := List.mem_ofFn.mp hp
    exact ih i (ht i)
  | repeated bounds p ih => exact (ih ht.2).repeated ht.1
  | optional default p ih => exact (ih ht).optional default
  | lookahead p ih => exact (ih ht).lookahead
  | not p ih => exact (ih ht).not
  | commit diagnostic p ih => exact (ih ht.2).commit ht.1
  | named name p ih => exact (ih ht).named name
  | ref i => exact hrefs i ht

/-- A fixed message breaks nothing and has no place of its own. -/
theorem keeps_expected {defs : Definitions τ} {p : Term τ α} {message : Bytes}
    (hp : p.Keeps c defs) : (p.expected message).Keeps c defs := by
  refine ⟨fun input offset _ _ => ⟨nofun, ?_⟩, hp⟩
  rintro _ _ ⟨⟩ _ ⟨⟩ _ ⟨⟩
  rfl

/-- What is said about an excerpt breaks nothing and has no place of its own. -/
theorem keeps_near (message : Bytes → Bytes) : Diagnostic.Keeps c fun input offset => do
    let near ← input.near offset
    return some { message := message near : ParseError } := by
  intro input offset h _
  obtain ⟨text, htext⟩ := input.near_isOk h
  dsimp only
  rw [htext]
  refine ⟨nofun, ?_⟩
  rintro _ _ ⟨⟩ _ ⟨⟩ _ ⟨⟩
  rfl

section Derived

variable {defs : Definitions τ} {β : Type} {p : Term τ α} {q : Term τ β} {ps : List (Term τ α)}

attribute [simp] Keeps

@[simp] theorem keeps_expected_iff {message : Bytes} :
    (p.expected message).Keeps c defs ↔ p.Keeps c defs := ⟨And.right, keeps_expected⟩

@[simp] theorem keeps_expect {what : Bytes} : (p.expect what).Keeps c defs ↔ p.Keeps c defs :=
  and_iff_right (keeps_near fun near => "unexpected " ++ near ++ " (expected " ++ what ++ ")")

@[simp] theorem keeps_choice : (choice ps).Keeps c defs ↔ ∀ p ∈ ps, p.Keeps c defs := by
  constructor
  · intro h p hp
    obtain ⟨i, rfl⟩ := List.get_of_mem hp
    exact h i
  · exact fun h i => h _ (List.get_mem ps i)

@[simp] theorem keeps_skipLeft :
    (p.skipLeft q).Keeps c defs ↔ p.Keeps c defs ∧ q.Keeps c defs := Iff.rfl

@[simp] theorem keeps_skipRight :
    (p.skipRight q).Keeps c defs ↔ p.Keeps c defs ∧ q.Keeps c defs := Iff.rfl

@[simp] theorem keeps_many0 : p.many0.Keeps c defs ↔ p.Keeps c defs :=
  and_iff_right (.inl Bounds.holdable_any)

@[simp] theorem keeps_many1 : p.many1.Keeps c defs ↔ p.Keeps c defs :=
  and_iff_right (.inl nofun)

@[simp] theorem keeps_spaces : (spaces : Term τ (List Char)).Keeps c defs := keeps_many0.mpr trivial

@[simp] theorem keeps_trim : p.trim.Keeps c defs ↔ p.Keeps c defs := by
  show (spaces.Keeps c defs ∧ p.Keeps c defs) ∧ spaces.Keeps c defs ↔ _
  rw [and_iff_left keeps_spaces, and_iff_right keeps_spaces]

@[simp] theorem keeps_value {b : β} : (p.value b).Keeps c defs ↔ p.Keeps c defs := Iff.rfl

end Derived

end Term

namespace Contract

/-- Errors may be about anything, and every breakdown is tolerated. -/
def lax : Contract := ⟨False, fun _ => True⟩

/-- Errors are about the input that was read, and no breakdown is tolerated. A run that is cut off
at the bound on references has not ended, so nothing is promised about it. -/
def strict : Contract := ⟨True, fun why => why = .outOfFuel⟩

end Contract

section Definitions

variable {ι : Type} {τ : ι → Type} {α : Type} {c : Contract} {defs : Definitions τ}

theorem Term.keeps_lax (t : Term τ α) : t.Keeps .lax defs := by
  induction t with
  | satisfy | literal | pattern | atEnd | always | never | fault => trivial
  | and p q ihp ihq => exact ⟨ihp, ihq⟩
  | sequence n ps ih => exact ih
  | map f p ih => exact ih
  | mapErr f p ih => exact ⟨False.elim, ih⟩
  | filter condition p ih => exact ih
  | flatMap p f ihp ihf => exact ⟨ihp, ihf⟩
  | or p q ihp ihq => exact ⟨ihp, ihq⟩
  | oneOf n ps ih => exact ih
  | repeated bounds p ih => exact ⟨.inr trivial, ih⟩
  | optional default p ih => exact ih
  | lookahead p ih => exact ih
  | not p ih => exact ih
  | commit diagnostic p ih => exact ⟨fun _ _ _ _ => ⟨fun _ _ => trivial, False.elim⟩, ih⟩
  | named name p ih => exact ih
  | ref i => exact fun _ => trivial

namespace Definitions

theorem refsAt_within (hfuel : c.halts .outOfFuel)
    (hdefs : ∀ i body, defs i = some body → body.Keeps c defs) (depth : Nat) (i : ι)
    (hi : defs i = none → c.halts (.fault .undefinedReference)) :
    (defs.refsAt depth i).Within c := by
  induction depth generalizing i with
  | zero => exact fun _ _ _ _ => ⟨nofun, nofun, nofun, by rintro _ ⟨⟩; exact hfuel, trivial⟩
  | succ depth ih =>
    simp only [refsAt]
    cases hbody : defs i with
    | none => exact Parser.within_fault (hi hbody)
    | some body =>
      dsimp only
      rw [parserAt_eq]
      exact Term.parser_within ih (hdefs i body hbody)

theorem parserAt_within (hfuel : c.halts .outOfFuel)
    (hdefs : ∀ i body, defs i = some body → body.Keeps c defs) {t : Term τ α}
    (ht : t.Keeps c defs) (depth : Nat) : (defs.parserAt depth t).Within c := by
  rw [parserAt_eq]
  exact Term.parser_within (refsAt_within hfuel hdefs depth) ht

theorem refsAt_within_lax (defs : Definitions τ) (depth : Nat) (i : ι) :
    (defs.refsAt depth i).Within .lax :=
  refsAt_within trivial (fun _ body _ => body.keeps_lax) depth i fun _ => trivial

theorem parserAt_within_lax (defs : Definitions τ) (depth : Nat) (t : Term τ α) :
    (defs.parserAt depth t).Within .lax :=
  parserAt_within trivial (fun _ body _ => body.keeps_lax) t.keeps_lax depth

theorem Yields.within {t : Term τ α} {input : Input} {offset : Int} {r : Run α}
    (h : defs.Yields t input offset r) (hstart : 0 ≤ offset) (hend : offset ≤ input.size) :
    r.Within .lax input offset := by
  obtain ⟨_, depth, rfl⟩ := h
  exact defs.parserAt_within_lax depth t input offset hstart hend

/-- A match and a miss stay between the start of the run and the end of the text, and so does all
that is traced, whatever the functions of the grammar do. If these never break down inside the text,
and what they complain about has no place of its own, then the run does not break down either, and
an error is about this very input, with its offset in the same range. -/
theorem yields_within {t : Term τ α} {input : Input} {offset : Int} {r : Run α}
    (h : defs.Yields t input offset r) (hstart : 0 ≤ offset) (hend : offset ≤ input.size) :
    (∀ value next, r.outcome = .success value next → offset ≤ next ∧ next ≤ input.size) ∧
    (∀ next, r.outcome = .miss next → offset ≤ next ∧ next ≤ input.size) ∧
    r.trace.Within input ∧
    (t.Keeps .strict defs → (∀ i body, defs i = some body → body.Keeps .strict defs) →
      (∀ why, r.outcome ≠ .halted why) ∧
      ∀ e, r.outcome = .fatal e →
        e.input = some input ∧ offset ≤ e.offset ∧ e.offset ≤ input.size) := by
  obtain ⟨hr, depth, rfl⟩ := h
  have hlax : (defs.parserAt depth t).Within .lax :=
    parserAt_within trivial (fun _ body _ => body.keeps_lax) t.keeps_lax depth
  have hrun := hlax input offset hstart hend
  refine ⟨hrun.matched, hrun.missed, hrun.traced, fun ht hdefs => ?_⟩
  have hstrict := parserAt_within (c := .strict) rfl hdefs ht depth input offset hstart hend
  constructor
  · intro why hwhy
    have heq : why = .outOfFuel := hstrict.broken why hwhy
    exact hr (heq ▸ hwhy)
  · exact hstrict.aborted trivial

theorem digitLists_keeps (i : Unit) (body : Term (fun _ : Unit => Nat) Nat)
    (h : digitLists i = some body) : body.Keeps .strict digitLists := by
  cases h
  have hitem : (Term.or (Term.digit.value 1) (Term.ref ())).Keeps .strict digitLists :=
    ⟨trivial, nofun⟩
  have hlist : (Term.sepBy0 (.or (Term.digit.value 1) (.ref ())) (Term.char ',')).Keeps .strict
      digitLists :=
    ⟨hitem, .inl Bounds.holdable_any, trivial, hitem⟩
  exact ⟨⟨trivial, hlist⟩, Term.keeps_expected trivial⟩

theorem yields_within_digitLists :
    ∃ r e, digitLists.Yields (.ref ()) (Input.ofBytes [] "[1,[2,3") 0 r ∧ r.outcome = .fatal e ∧
      e.input = some (Input.ofBytes [] "[1,[2,3") ∧ 0 ≤ e.offset ∧ e.offset ≤ 7 := by
  let r := digitLists.parserAt 3 (.ref ()) (Input.ofBytes [] "[1,[2,3") 0
  obtain ⟨e, he⟩ : ∃ e, r.outcome = .fatal e := ⟨_, rfl⟩
  have h : digitLists.Yields (.ref ()) (Input.ofBytes [] "[1,[2,3") 0 r :=
    ⟨by simp [he], 3, rfl⟩
  obtain ⟨_, _, _, hstrict⟩ := yields_within h (by decide) (by decide)
  exact ⟨r, e, h, he, (hstrict nofun digitLists_keeps).2 e he⟩

end Definitions

end Definitions

end Backtrack
