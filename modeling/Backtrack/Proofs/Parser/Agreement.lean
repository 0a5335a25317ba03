import Mathlib.Algebra.GroupWithZero.Nat
import Mathlib.Data.List.Forall2
import Backtrack.Parser.Term

/-!
# Runs that agree unless they stop

An error and a breakdown stop a run: every combinator hands them on unchanged. So if two parsers
agree wherever the first does not stop for one of some reasons, then all that is built from them
agrees in the same sense. With the bound on references as the only reason, this says that a greater
bound never changes a run that ended within a smaller one, and `Definitions.Yields` speaks of the
run of a term without a bound.

This module does NOT show that any run ends.
-/

namespace Backtrack

/-- Why a run ended although nothing in it could recover. -/
inductive Stop where
  | fatal (error : ParseError)
  | halted (why : Halt)

/-- Why an outcome is neither a match nor a miss. -/
def Outcome.stop? {α : Type} : Outcome α → Option Stop
  | success .. | miss _ => none
  | fatal error => some (.fatal error)
  | halted why => some (.halted why)

namespace Run

variable {α β : Type} {bad : Stop → Prop}

/-- The first run stops for one of the given reasons, or both runs are the same. -/
def AgreeUnless (bad : Stop → Prop) (r s : Run α) : Prop :=
  (∃ why, r.outcome.stop? = some why ∧ bad why) ∨ r = s

theorem AgreeUnless.refl (r : Run α) : r.AgreeUnless bad r := .inr rfl

theorem AgreeUnless.eq {r s : Run α} (h : r.AgreeUnless bad s)
    (hr : ∀ why, r.outcome.stop? = some why → ¬ bad why) : r = s := by
  rcases h with ⟨why, hwhy, hbad⟩ | h
  · exact absurd hbad (hr why hwhy)
  · exact h

theorem AgreeUnless.after {r s : Run α} (h : r.AgreeUnless bad s) (trace : Trace) :
    (r.after trace).AgreeUnless bad (s.after trace) := by
  rcases h with h | rfl
  · exact .inl h
  · exact .refl _

theorem onSuccess_stop? {r : Run α} {why : Stop} (h : r.outcome.stop? = some why)
    (next : α → Int → Run β) : (r.onSuccess next).outcome.stop? = some why := by
  obtain ⟨outcome, trace⟩ := r
  cases outcome <;> simp_all [Outcome.stop?, onSuccess]

theorem onMiss_stop? {r : Run α} {why : Stop} (h : r.outcome.stop? = some why)
    (next : Int → Run α) : (r.onMiss next).outcome.stop? = some why := by
  obtain ⟨outcome, trace⟩ := r
  cases outcome <;> simp_all [Outcome.stop?, onMiss]

theorem AgreeUnless.onSuccess {r s : Run α} (h : r.AgreeUnless bad s) {f g : α → Int → Run β}
    (hfg : ∀ a next, (f a next).AgreeUnless bad (g a next)) :
    (r.onSuccess f).AgreeUnless bad (s.onSuccess g) := by
  rcases h with ⟨why, hwhy, hbad⟩ | rfl
  · exact .inl ⟨why, onSuccess_stop? hwhy f, hbad⟩
  · unfold Run.onSuccess
    split
    · exact (hfg _ _).after _
    all_goals exact .refl _

theorem AgreeUnless.onMiss {r s : Run α} (h : r.AgreeUnless bad s) {f g : Int → Run α}
    (hfg : ∀ next, (f next).AgreeUnless bad (g next)) :
    (r.onMiss f).AgreeUnless bad (s.onMiss g) := by
  rcases h with ⟨why, hwhy, hbad⟩ | rfl
  · exact .inl ⟨why, onMiss_stop? hwhy f, hbad⟩
  · unfold Run.onMiss
    split
    · exact (hfg _).after _
    · exact .refl _

end Run

namespace Parser

variable {α β : Type} {bad : Stop → Prop}

/-- Two parsers agree on every run in which the first does not stop for one of the given reasons. -/
def AgreeUnless (bad : Stop → Prop) (p q : Parser α) : Prop :=
  ∀ input offset, (p input offset).AgreeUnless bad (q input offset)

namespace AgreeUnless

theorem refl (p : Parser α) : p.AgreeUnless bad p := fun _ _ => .refl _

variable {p p' : Parser α} {q q' : Parser β}

theorem and (hp : p.AgreeUnless bad p') (hq : q.AgreeUnless bad q') :
    (p.and q).AgreeUnless bad (p'.and q') := by
  intro input offset
  refine (hp input offset).onSuccess fun a middle => ?_
  exact (hq input middle).onSuccess fun b next => .refl _

theorem sequenceFrom {ps ps' : List (Parser α)} (h : List.Forall₂ (AgreeUnless bad) ps ps')
    (values : List α) :
    (Parser.sequenceFrom values ps).AgreeUnless bad (Parser.sequenceFrom values ps') := by
  induction h generalizing values with
  | nil => exact .refl _
  | cons hp _ ih =>
    intro input offset
    exact (hp input offset).onSuccess fun a next => ih (a :: values) input next

theorem map (hp : p.AgreeUnless bad p') (f : α → β) : (p.map f).AgreeUnless bad (p'.map f) :=
  fun input offset => (hp input offset).onSuccess fun _ _ => .refl _

theorem mapErr (hp : p.AgreeUnless bad p') (f : α → Except Error β) :
    (p.mapErr f).AgreeUnless bad (p'.mapErr f) :=
  fun input offset => (hp input offset).onSuccess fun _ _ => .refl _

theorem filter (hp : p.AgreeUnless bad p') (condition : α → Bool) :
    (p.filter condition).AgreeUnless bad (p'.filter condition) :=
  fun input offset => (hp input offset).onSuccess fun _ _ => .refl _

theorem flatMap (hp : p.AgreeUnless bad p') {f f' : α → Parser β}
    (hf : ∀ a, (f a).AgreeUnless bad (f' a)) :
    (p.flatMap f).AgreeUnless bad (p'.flatMap f') := by
  intro input offset
  refine (hp input offset).onSuccess fun a middle => ?_
  exact (hf a input middle).onSuccess fun b next => .refl _

theorem or {q q' : Parser α} (hp : p.AgreeUnless bad p') (hq : q.AgreeUnless bad q') :
    (p.or q).AgreeUnless bad (p'.or q') := by
  intro input offset
  refine (hp input offset).onMiss fun missed => ?_
  exact (hq input offset).onMiss fun other => .refl _

theorem oneOfFrom {ps ps' : List (Parser α)} (h : List.Forall₂ (AgreeUnless bad) ps ps')
    (furthest : Int) :
    (Parser.oneOfFrom furthest ps).AgreeUnless bad (Parser.oneOfFrom furthest ps') := by
  induction h generalizing furthest with
  | nil => exact .refl _
  | cons hp _ ih =>
    intro input offset
    exact (hp input offset).onMiss fun missed => ih _ input offset

theorem oneOf {ps ps' : List (Parser α)} (h : List.Forall₂ (AgreeUnless bad) ps ps') :
    (Parser.oneOf ps).AgreeUnless bad (Parser.oneOf ps') :=
  fun input offset => oneOfFrom h offset input offset

theorem repeatExactly (hp : p.AgreeUnless bad p') {rest rest' : List α → Parser (List α)}
    (hrest : ∀ values, (rest values).AgreeUnless bad (rest' values)) (n : Nat) (values : List α) :
    (Parser.repeatExactly p rest n values).AgreeUnless bad
      (Parser.repeatExactly p' rest' n values) := by
  induction n generalizing values with
  | zero => exact hrest values
  | succ n ih =>
    intro input offset
    exact (hp input offset).onSuccess fun a next => ih (a :: values) input next

theorem repeatUpTo (hp : p.AgreeUnless bad p') (input : Input) (n : Nat) (values : List α)
    (trace : Trace) (offset : Int) :
    (Parser.repeatUpTo p input n values trace offset).AgreeUnless bad
      (Parser.repeatUpTo p' input n values trace offset) := by
  induction n generalizing values trace offset with
  | zero => exact .refl _
  | succ n ih =>
    unfold Parser.repeatUpTo
    rcases hp input offset with ⟨why, hwhy, hbad⟩ | heq
    · left
      cases houtcome : (p input offset).outcome <;> simp_all [Outcome.stop?]
    · rw [← heq]
      dsimp only
      split
      · exact ih _ _ _
      all_goals exact .refl _

theorem repeatMany (hp : p.AgreeUnless bad p') (input : Input) (fuel : Nat) (values : List α)
    (trace : Trace) (offset : Int) :
    (Parser.repeatMany p input fuel values trace offset).AgreeUnless bad
      (Parser.repeatMany p' input fuel values trace offset) := by
  induction fuel generalizing values trace offset with
  | zero => exact .refl _
  | succ fuel ih =>
    unfold Parser.repeatMany
    rcases hp input offset with ⟨why, hwhy, hbad⟩ | heq
    · left
      cases houtcome : (p input offset).outcome <;> simp_all [Outcome.stop?]
    · rw [← heq]
      dsimp only
      split
      · split
        · exact .refl _
        · exact ih _ _ _
      all_goals exact .refl _

theorem repeated (hp : p.AgreeUnless bad p') (bounds : Bounds) :
    (p.repeated bounds).AgreeUnless bad (p'.repeated bounds) := by
  intro input offset
  unfold Parser.repeated
  split
  · refine repeatExactly hp (fun values input next => ?_) bounds.least [] input offset
    split
    · exact repeatMany hp input _ values .nil next
    · exact repeatUpTo hp input _ values .nil next
  · exact .refl _

theorem optional (hp : p.AgreeUnless bad p') (default : α) :
    (p.optional default).AgreeUnless bad (p'.optional default) :=
  fun input offset => (hp input offset).onMiss fun _ => .refl _

theorem lookahead (hp : p.AgreeUnless bad p') : p.lookahead.AgreeUnless bad p'.lookahead :=
  fun input offset => (hp input offset).onSuccess fun _ _ => .refl _

theorem not (hp : p.AgreeUnless bad p') : p.not.AgreeUnless bad p'.not := by
  intro input offset
  unfold Parser.not
  rcases hp input offset with ⟨why, hwhy, hbad⟩ | heq
  · left
    cases houtcome : (p input offset).outcome <;> simp_all [Outcome.stop?]
  · rw [heq]
    exact .refl _

theorem commit (hp : p.AgreeUnless bad p') (diagnostic : Diagnostic) :
    (p.commit diagnostic).AgreeUnless bad (p'.commit diagnostic) :=
  fun input offset => (hp input offset).onMiss fun _ => .refl _

theorem named (hp : p.AgreeUnless bad p') (name : Bytes) :
    (p.named name).AgreeUnless bad (p'.named name) := by
  intro input offset
  unfold Parser.named
  rcases hp input offset with h | heq
  · exact .inl h
  · rw [heq]
    exact .refl _

end AgreeUnless

end Parser

theorem forall₂_ofFn {α β : Type} {R : α → β → Prop} {n : Nat} {f : Fin n → α} {g : Fin n → β}
    (h : ∀ i, R (f i) (g i)) : List.Forall₂ R (List.ofFn f) (List.ofFn g) := by
  induction n with
  | zero => simp
  | succ n ih =>
    rw [List.ofFn_succ, List.ofFn_succ]
    exact .cons (h 0) (ih fun i => h i.succ)

section Terms

variable {ι : Type} {τ : ι → Type} {α : Type} {bad : Stop → Prop}

theorem Term.parser_agreeUnless {refs refs' : (i : ι) → Parser (τ i)}
    (h : ∀ i, (refs i).AgreeUnless bad (refs' i)) (t : Term τ α) :
    (t.parser refs).AgreeUnless bad (t.parser refs') := by
  induction t with
  | satisfy | literal | pattern | atEnd | always | never | fault => exact .refl _
  | and p q ihp ihq => exact ihp.and ihq
  | sequence n ps ih => exact .sequenceFrom (forall₂_ofFn ih) []
  | map f p ih => exact ih.map f
  | mapErr f p ih => exact ih.mapErr f
  | filter condition p ih => exact ih.filter condition
  | flatMap p f ihp ihf => exact ihp.flatMap ihf
  | or p q ihp ihq => exact ihp.or ihq
  | oneOf n ps ih => exact .oneOf (forall₂_ofFn ih)
  | repeated bounds p ih => exact ih.repeated bounds
  | optional default p ih => exact ih.optional default
  | lookahead p ih => exact ih.lookahead
  | not p ih => exact ih.not
  | commit diagnostic p ih => exact ih.commit diagnostic
  | named name p ih => exact ih.named name
  | ref i => exact h i

namespace Definitions

variable (defs : Definitions τ)

/-- What the references of a term stand for when they are followed to a depth. -/
def refsAt (defs : Definitions τ) : (depth : Nat) → (i : ι) → Parser (τ i)
  | 0, _ => fun _ _ => { outcome := .halted .outOfFuel }
  | depth + 1, i =>
    match defs i with
    | some body => defs.parserAt depth body
    | none => .fault .undefinedReference

theorem parserAt_eq (depth : Nat) (t : Term τ α) :
    defs.parserAt depth t = t.parser (defs.refsAt depth) := by
  cases depth <;> rfl

/-- The only way to stop that a greater depth may help against. -/
def TooDeep (why : Stop) : Prop := why = .halted .outOfFuel

theorem refsAt_succ (depth : Nat) (i : ι) :
    (defs.refsAt depth i).AgreeUnless TooDeep (defs.refsAt (depth + 1) i) := by
  induction depth generalizing i with
  | zero => exact fun _ _ => .inl ⟨_, rfl, rfl⟩
  | succ depth ih =>
    simp only [refsAt]
    split
    · rw [parserAt_eq, parserAt_eq]
      exact Term.parser_agreeUnless ih _
    · exact .refl _

theorem parserAt_succ (depth : Nat) (t : Term τ α) :
    (defs.parserAt depth t).AgreeUnless TooDeep (defs.parserAt (depth + 1) t) := by
  rw [parserAt_eq, parserAt_eq]
  exact Term.parser_agreeUnless (defs.refsAt_succ depth) t

/-- A run that did not reach the bound on references is the same under every greater bound. -/
theorem parserAt_eq_of_le {depth depth' : Nat} (h : depth ≤ depth') (t : Term τ α) (input : Input)
    (offset : Int) (hr : (defs.parserAt depth t input offset).outcome ≠ .halted .outOfFuel) :
    defs.parserAt depth' t input offset = defs.parserAt depth t input offset := by
  induction h with
  | refl => rfl
  | @step depth' _ ih =>
    rw [← ih]
    refine ((defs.parserAt_succ depth' t input offset).eq ?_).symm
    intro why hwhy hbad
    rw [ih, hbad] at hwhy
    cases houtcome : (defs.parserAt depth t input offset).outcome <;>
      simp_all [Outcome.stop?]

/-- The run of a term at an offset ends, and this is it. No bound on references is involved: that
of the run that is looked at was not reached. -/
def Yields (t : Term τ α) (input : Input) (offset : Int) (r : Run α) : Prop :=
  r.outcome ≠ .halted .outOfFuel ∧ ∃ depth, defs.parserAt depth t input offset = r

variable {defs}

/-- A term has at most one run at an offset. -/
theorem Yields.unique {t : Term τ α} {input : Input} {offset : Int} {r s : Run α}
    (hr : defs.Yields t input offset r) (hs : defs.Yields t input offset s) : r = s := by
  obtain ⟨hr, m, rfl⟩ := hr
  obtain ⟨hs, n, rfl⟩ := hs
  rcases Nat.le_total m n with h | h
  · exact (defs.parserAt_eq_of_le h t input offset hr).symm
  · exact defs.parserAt_eq_of_le h t input offset hs

/-- Lists of digits in brackets, nested to any depth, with a commit point behind every opening
bracket. The value is the number of digits. -/
def digitLists : Definitions fun _ : Unit => Nat := fun _ =>
  some <| Term.map List.sum <| Term.surround
    (Term.sepBy0 (.or (Term.digit.value 1) (.ref ())) (Term.char ','))
    (Term.char '[') (Term.expected "expected ']'" (Term.char ']'))

end Definitions

end Terms

end Backtrack
