import Backtrack.Proofs.Parser.Agreement

/-!
# Commit points and runs that are not aborted

A commit point turns a miss into an error, and nothing recovers from an error. So a commit point
that has any effect on a run aborts it, and a run that is not aborted is the run of the grammar
without its commit points. A message that is asked for is a commit point with a fixed diagnostic,
so it is erased too.
-/

namespace Backtrack

variable {ι : Type} {τ : ι → Type} {α : Type}

namespace Term

/-- A term without its commit points, also in what is built during a match. -/
def erase : {α : Type} → Term τ α → Term τ α
  | _, satisfy condition => satisfy condition
  | _, literal text => literal text
  | _, pattern r => pattern r
  | _, atEnd => atEnd
  | _, always value => always value
  | _, never => never
  | _, fault f => fault f
  | _, and p q => and p.erase q.erase
  | _, sequence n ps => sequence n fun i => (ps i).erase
  | _, map f p => map f p.erase
  | _, mapErr f p => mapErr f p.erase
  | _, filter condition p => filter condition p.erase
  | _, flatMap p f => flatMap p.erase fun a => (f a).erase
  | _, or p q => or p.erase q.erase
  | _, oneOf n ps => oneOf n fun i => (ps i).erase
  | _, repeated bounds p => repeated bounds p.erase
  | _, optional default p => optional default p.erase
  | _, lookahead p => lookahead p.erase
  | _, not p => not p.erase
  | _, commit _ p => p.erase
  | _, named name p => named name p.erase
  | _, ref i => ref i

end Term

def Definitions.erase (defs : Definitions τ) : Definitions τ := fun i => (defs i).map Term.erase

def AnyStop (_ : Stop) : Prop := True

theorem Run.agreeUnless_of_stop {r s : Run α} {why : Stop} (h : r.outcome.stop? = some why) :
    r.AgreeUnless AnyStop s := .inl ⟨why, h, trivial⟩

theorem Run.ofExcept_fatal_stop? (e : Except Fault ParseError) :
    ∃ why, (Run.ofExcept e Run.fatal : Run α).outcome.stop? = some why := by
  cases e with
  | error f => exact ⟨_, rfl⟩
  | ok error => exact ⟨_, rfl⟩

/-- A commit point either stops the run or leaves it as it is. -/
theorem Parser.commit_agreeUnless {p q : Parser α} (h : p.AgreeUnless AnyStop q)
    (diagnostic : Diagnostic) : (p.commit diagnostic).AgreeUnless AnyStop q := by
  intro input offset
  unfold Parser.commit Run.onMiss
  split
  · obtain ⟨why, hwhy⟩ := Run.ofExcept_fatal_stop? (α := α) _
    exact Run.agreeUnless_of_stop hwhy
  · exact h input offset

/-- A term and its erasure agree unless the run of the term stops. -/
theorem Term.parser_erase {refs refs' : (i : ι) → Parser (τ i)}
    (h : ∀ i, (refs i).AgreeUnless AnyStop (refs' i)) (t : Term τ α) :
    (t.parser refs).AgreeUnless AnyStop (t.erase.parser refs') := by
  induction t with
  | satisfy | literal | pattern | atEnd | always | never | fault => exact .refl _
  | and p q ihp ihq => exact ihp.and ihq
  | sequence n ps ih => exact .sequenceFrom (forall₂_ofFn ih) []
  | map f p ih => exact ih.map f
  | mapErr f p ih => exact ih.mapErr f
  | filter condition p ih => exact ih.filter condition
  | flatMap p f ihp ihf => exact ihp.flatMap ihf
  | or p q ihp ihq => exact ihp.or ihq
  | oneOf n ps ih => exact .oneOf (forall₂_ofFn ih)
  | repeated bounds p ih => exact ih.repeated bounds
  | optional default p ih => exact ih.optional default
  | lookahead p ih => exact ih.lookahead
  | not p ih => exact ih.not
  | commit diagnostic p ih => exact Parser.commit_agreeUnless ih diagnostic
  | named name p ih => exact ih.named name
  | ref i => exact h i

namespace Definitions

variable (defs : Definitions τ)

theorem refsAt_erase (depth : Nat) (i : ι) :
    (defs.refsAt depth i).AgreeUnless AnyStop (defs.erase.refsAt depth i) := by
  induction depth generalizing i with
  | zero => exact .refl _
  | succ depth ih =>
    simp only [refsAt, Definitions.erase]
    cases defs i with
    | none => exact .refl _
    | some body =>
      simp only [Option.map_some]
      rw [parserAt_eq, parserAt_eq]
      exact Term.parser_erase ih body

theorem parserAt_erase (depth : Nat) (t : Term τ α) :
    (defs.parserAt depth t).AgreeUnless AnyStop (defs.erase.parserAt depth t.erase) := by
  rw [parserAt_eq, parserAt_eq]
  exact Term.parser_erase (defs.refsAt_erase depth) t

/-- A run that ends in a match or a miss is, with its value, its offset and its trace, the run of
the same grammar without commit points. -/
theorem yields_erase (t : Term τ α) (input : Input) (offset : Int) (r : Run α)
    (h : defs.Yields t input offset r) (hr : r.outcome.stop? = none) :
    defs.erase.Yields t.erase input offset r := by
  obtain ⟨hfuel, depth, rfl⟩ := h
  refine ⟨hfuel, depth, ?_⟩
  refine ((defs.parserAt_erase depth t input offset).eq ?_).symm
  intro why hwhy
  rw [hr] at hwhy
  cases hwhy

theorem yields_erase_digitLists :
    ∃ r, digitLists.Yields (.ref ()) (Input.ofBytes [] "[1,[2,3]]") 0 r ∧
      r.outcome = .success 3 9 ∧
      digitLists.erase.Yields (.ref ()) (Input.ofBytes [] "[1,[2,3]]") 0 r := by
  let r := digitLists.parserAt 3 (.ref ()) (Input.ofBytes [] "[1,[2,3]]") 0
  have houtcome : r.outcome = .success 3 9 := rfl
  have h : digitLists.Yields (.ref ()) (Input.ofBytes [] "[1,[2,3]]") 0 r :=
    ⟨by simp [houtcome], 3, rfl⟩
  refine ⟨r, h, houtcome, ?_⟩
  exact digitLists.yields_erase (.ref ()) _ 0 r h (by simp [houtcome, Outcome.stop?])

end Definitions

end Backtrack
