import Backtrack.Proofs.Parser.Bounds
import Backtrack.Proofs.Parser.Failing

/-!
# Terms that never abort a run

Only two things make an error: a commit point, and a function that rejects the value of a match. A
run of a term without them comes to a match or a miss wherever it ends, provided that nothing breaks
down. Evaluating such a term can only complain about input that it does not expect.

This module does NOT show that a run ends.
-/

namespace Backtrack

variable {ι : Type} {τ : ι → Type} {α β : Type}

def Run.Gentle (r : Run α) : Prop := ∀ e, r.outcome ≠ .fatal e

namespace Run.Gentle

variable {r : Run α}

theorem onSuccess {f : α → Int → Run β} (hr : r.Gentle)
    (hf : ∀ a middle, (f a middle).Gentle) : (r.onSuccess f).Gentle := by
  intro e h
  rcases onSuccess_eq_fatal.mp h with h | ⟨a, middle, _, h⟩
  · exact hr e h
  · exact hf a middle e h

theorem onMiss {f : Int → Run α} (hr : r.Gentle) (hf : ∀ missed, (f missed).Gentle) :
    (r.onMiss f).Gentle := by
  intro e h
  rcases onMiss_eq_fatal.mp h with h | ⟨missed, _, h⟩
  · exact hr e h
  · exact hf missed e h

theorem ofExcept {ε : Type} {x : Except Fault ε} {next : ε → Run α}
    (hnext : ∀ a, (next a).Gentle) : (Run.ofExcept x next).Gentle := by
  cases x with
  | ok a => exact hnext a
  | error f => nofun

end Run.Gentle

namespace Parser

def Gentle (p : Parser α) : Prop := ∀ input offset, (p input offset).Gentle

theorem gentle_satisfy (condition : Char → Bool) : (satisfy condition).Gentle := by
  intro input offset
  apply Run.Gentle.ofExcept
  intro next
  split
  · nofun
  · split <;> nofun

theorem gentle_literal (text : Bytes) : (literal text).Gentle := by
  intro input offset
  apply Run.Gentle.ofExcept
  intro place
  split <;> nofun

theorem gentle_pattern (r : Regex) : (pattern r).Gentle := by
  intro input offset
  apply Run.Gentle.ofExcept
  intro place
  split <;> nofun

theorem gentle_atEnd : atEnd.Gentle := by
  intro input offset
  unfold atEnd
  split <;> nofun

namespace Gentle

variable {p : Parser α} {q : Parser β}

theorem sequenceFrom {ps : List (Parser α)} (hps : ∀ p ∈ ps, p.Gentle) (values : List α) :
    (Parser.sequenceFrom values ps).Gentle := by
  induction ps generalizing values with
  | nil => exact fun _ _ => nofun
  | cons p ps ih =>
    obtain ⟨hp, hps⟩ := List.forall_mem_cons.mp hps
    intro input offset
    exact (hp input offset).onSuccess fun a next => ih hps (a :: values) input next

theorem oneOfFrom {ps : List (Parser α)} (hps : ∀ p ∈ ps, p.Gentle) (furthest : Int) :
    (Parser.oneOfFrom furthest ps).Gentle := by
  induction ps generalizing furthest with
  | nil => exact fun _ _ => nofun
  | cons p ps ih =>
    obtain ⟨hp, hps⟩ := List.forall_mem_cons.mp hps
    intro input offset
    exact (hp input offset).onMiss fun missed => ih hps _ input offset

theorem repeatExactly (hp : p.Gentle) {rest : List α → Parser (List α)}
    (hrest : ∀ values, (rest values).Gentle) (n : Nat) (values : List α) :
    (Parser.repeatExactly p rest n values).Gentle := by
  induction n generalizing values with
  | zero => exact hrest values
  | succ n ih =>
    intro input offset
    exact (hp input offset).onSuccess fun a next => ih (a :: values) input next

theorem repeatUpTo (hp : p.Gentle) (input : Input) (n : Nat) (values : List α) (trace : Trace)
    (offset : Int) : (Parser.repeatUpTo p input n values trace offset).Gentle := by
  induction n generalizing values trace offset with
  | zero => nofun
  | succ n ih =>
    unfold Parser.repeatUpTo
    dsimp only
    split
    · exact ih _ _ _
    · nofun
    · rename_i e he
      exact absurd he (hp input offset e)
    · nofun

theorem repeatMany (hp : p.Gentle) (input : Input) (fuel : Nat) (values : List α) (trace : Trace)
    (offset : Int) : (Parser.repeatMany p input fuel values trace offset).Gentle := by
  induction fuel generalizing values trace offset with
  | zero => nofun
  | succ fuel ih =>
    unfold Parser.repeatMany
    dsimp only
    split
    · split
      · nofun
      · exact ih _ _ _
    · nofun
    · rename_i e he
      exact absurd he (hp input offset e)
    · nofun

theorem repeated (hp : p.Gentle) (bounds : Bounds) : (p.repeated bounds).Gentle := by
  intro input offset
  rw [repeated_eq]
  split
  · apply repeatExactly hp
    intro values input next
    unfold further
    split
    · exact repeatMany hp input _ values .nil next
    · exact repeatUpTo hp input _ values .nil next
  · nofun

theorem not (hp : p.Gentle) : p.not.Gentle := by
  intro input offset
  unfold Parser.not
  dsimp only
  split
  · nofun
  · nofun
  · rename_i e he
    exact absurd he (hp input offset e)
  · nofun

theorem matchedText (hp : p.Gentle) : p.matchedText.Gentle := by
  intro input offset
  apply (hp input offset).onSuccess
  intro _ _
  exact .ofExcept fun _ => nofun

end Gentle
end Parser

namespace Term

/-- A term without commit points and without functions that reject values. -/
def Gentle : {α : Type} → Term τ α → Prop
  | _, satisfy _ | _, literal _ | _, pattern _ | _, atEnd | _, always _ | _, never | _, fault _
  | _, ref _ => True
  | _, and p q => p.Gentle ∧ q.Gentle
  | _, sequence _ ps | _, oneOf _ ps => ∀ i, (ps i).Gentle
  | _, map _ p | _, filter _ p | _, repeated _ p | _, optional _ p | _, lookahead p | _, not p
  | _, named _ p => p.Gentle
  | _, mapErr f p => (∀ a error, f a ≠ .error error) ∧ p.Gentle
  | _, flatMap p f => p.Gentle ∧ ∀ a, (f a).Gentle
  | _, or p q => p.Gentle ∧ q.Gentle
  | _, commit _ _ => False

theorem parser_gentle {refs : (i : ι) → Parser (τ i)} (hrefs : ∀ i, (refs i).Gentle)
    {t : Term τ α} (ht : t.Gentle) : (t.parser refs).Gentle := by
  induction t with
  | satisfy condition => exact Parser.gentle_satisfy condition
  | literal text => exact Parser.gentle_literal text
  | pattern r => exact Parser.gentle_pattern r
  | atEnd => exact Parser.gentle_atEnd
  | always | never | fault => exact fun _ _ => nofun
  | and p q ihp ihq =>
    intro input offset
    apply (ihp ht.1 input offset).onSuccess
    exact fun _ middle => (ihq ht.2 input middle).onSuccess fun _ _ => nofun
  | sequence n ps ih =>
    refine .sequenceFrom (fun p hp => ?_) []
    obtain ⟨i, rfl⟩ := List.mem_ofFn.mp hp
    exact ih i (ht i)
  | map f p ih => exact fun input offset => (ih ht input offset).onSuccess fun _ _ => nofun
  | mapErr f p ih =>
    intro input offset
    apply (ih ht.2 input offset).onSuccess
    intro a _
    split
    · nofun
    · rename_i error herror
      exact absurd herror (ht.1 a error)
  | filter condition p ih =>
    intro input offset
    apply (ih ht input offset).onSuccess
    intro _ _
    split <;> nofun
  | flatMap p f ihp ihf =>
    intro input offset
    apply (ihp ht.1 input offset).onSuccess
    exact fun a middle => (ihf a (ht.2 a) input middle).onSuccess fun _ _ => nofun
  | or p q ihp ihq =>
    intro input offset
    apply (ihp ht.1 input offset).onMiss
    exact fun _ => (ihq ht.2 input offset).onMiss fun _ => nofun
  | oneOf n ps ih =>
    intro input offset
    refine Parser.Gentle.oneOfFrom (fun p hp => ?_) offset input offset
    obtain ⟨i, rfl⟩ := List.mem_ofFn.mp hp
    exact ih i (ht i)
  | repeated bounds p ih => exact (ih ht).repeated bounds
  | optional default p ih =>
    exact fun input offset => (ih ht input offset).onMiss fun _ => nofun
  | lookahead p ih => exact fun input offset => (ih ht input offset).onSuccess fun _ _ => nofun
  | not p ih => exact (ih ht).not
  | commit diagnostic p ih => exact ht.elim
  | named name p ih => exact ih ht
  | ref i => exact hrefs i

theorem gentle_sequenceOf {ps : List (Term τ α)} (h : ∀ p ∈ ps, p.Gentle) :
    (sequenceOf ps).Gentle := fun i => h _ (List.get_mem ps i)

theorem gentle_choice {ps : List (Term τ α)} (h : ∀ p ∈ ps, p.Gentle) : (choice ps).Gentle :=
  fun i => h _ (List.get_mem ps i)

end Term

namespace Definitions

variable {defs : Definitions τ}

theorem refsAt_gentle (hdefs : ∀ i body, defs i = some body → body.Gentle) (depth : Nat) (i : ι) :
    (defs.refsAt depth i).Gentle := by
  induction depth generalizing i with
  | zero =>
    intro input offset e h
    cases h
  | succ depth ih =>
    simp only [refsAt]
    cases hbody : defs i with
    | none =>
      intro input offset e h
      cases h
    | some body =>
      dsimp only
      rw [parserAt_eq]
      exact Term.parser_gentle ih (hdefs i body hbody)

theorem parserAt_gentle (hdefs : ∀ i body, defs i = some body → body.Gentle) {t : Term τ α}
    (ht : t.Gentle) (depth : Nat) : (defs.parserAt depth t).Gentle := by
  rw [parserAt_eq]
  exact Term.parser_gentle (refsAt_gentle hdefs depth) ht

end Definitions

/-- A run that comes to a match or a miss between an offset and the end of the text, unless the
bound on references is reached. -/
def Run.Plain (input : Input) (offset : Int) (r : Run α) : Prop :=
  (∃ value next, r.outcome = .success value next ∧ offset ≤ next ∧ next ≤ input.size) ∨
  (∃ next, r.outcome = .miss next ∧ offset ≤ next ∧ next ≤ input.size) ∨
  r.outcome = .halted .outOfFuel

theorem Run.plain_of_gentle {r : Run α} {input : Input} {offset : Int} (hr : r.Gentle)
    (h : r.Within .strict input offset) : r.Plain input offset := by
  cases houtcome : r.outcome with
  | success value next => exact .inl ⟨value, next, houtcome, h.matched value next houtcome⟩
  | miss next => exact .inr (.inl ⟨next, houtcome, h.missed next houtcome⟩)
  | fatal e => exact absurd houtcome (hr e)
  | halted why =>
    obtain rfl : why = .outOfFuel := h.broken why houtcome
    exact .inr (.inr houtcome)

/-- An evaluation whose run matches or misses comes to a value, or to a complaint about input that
was not expected. -/
theorem Parser.evaluate_of_plain {p : Parser α} {text : Bytes} {requests : List Setting}
    {settings : Settings} (hsettings : Settings.ofList requests = .ok settings)
    (h : (p (Input.ofBytes settings.filename text) 0).Plain
      (Input.ofBytes settings.filename text) 0) :
    (∃ value, (p.evaluate text requests).result = .ok (.ok value)) ∨
    (∃ position near trailing,
      (p.evaluate text requests).result = .ok (.error (.unexpected position near trailing))) ∨
    (p.evaluate text requests).result = .error .outOfFuel := by
  unfold Parser.evaluate
  rw [hsettings]
  dsimp only
  have hreport : ∀ next trailing, 0 ≤ next → ∃ position near,
      (Outcome.judge.report (Input.ofBytes settings.filename text) next trailing :
        Except Halt (Except Error α)) = .ok (.error (.unexpected position near trailing)) := by
    intro next trailing hnext
    obtain ⟨near, hnear⟩ := Outcome.exists_report hnext trailing
    exact ⟨_, near, hnear⟩
  rcases h with ⟨value, next, houtcome, hnext, _⟩ | ⟨next, houtcome, hnext, _⟩ | houtcome
  · rw [houtcome]
    unfold Outcome.judge
    dsimp only
    split
    · obtain ⟨position, near, hresult⟩ := hreport next true hnext
      exact .inr (.inl ⟨position, near, true, hresult⟩)
    · exact .inl ⟨value, rfl⟩
  · rw [houtcome]
    obtain ⟨position, near, hresult⟩ := hreport next false hnext
    exact .inr (.inl ⟨position, near, false, hresult⟩)
  · rw [houtcome]
    exact .inr (.inr rfl)

end Backtrack
