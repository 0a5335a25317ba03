import Mathlib.Data.Finset.Card
import Mathlib.Data.Finset.Filter
import Backtrack.Proofs.Parser.LeftCalls
import Backtrack.Proofs.Parser.Settling

/-!
# Grammars without left recursion

If no definition leads back to itself on its left, every run ends. Between two characters the
references that are followed become ever lower in the order of left calls, which has no more steps
than there are definitions; so the bound on the depth of references that the number of definitions
gives is not reached. Repetitions of a term that may match without consuming are no exception.

This module does NOT exclude that a run breaks down, which is up to the functions of the grammar.
-/

namespace Backtrack

variable {ι : Type} {τ : ι → Type} {α β : Type}

/-- The run does not reach the bound on references. -/
def Run.Ends (r : Run α) : Prop := r.outcome ≠ .halted .outOfFuel

namespace Run

variable {r : Run α}

theorem ends_onSuccess {f : α → Int → Run β} (hr : r.Ends)
    (hf : ∀ a middle, r.outcome = .success a middle → (f a middle).Ends) :
    (r.onSuccess f).Ends := by
  intro hhalted
  rcases onSuccess_eq_halted.mp hhalted with hhalted | ⟨a, middle, ha, hhalted⟩
  · exact hr hhalted
  · exact hf a middle ha hhalted

theorem ends_onMiss {f : Int → Run α} (hr : r.Ends)
    (hf : ∀ missed, r.outcome = .miss missed → (f missed).Ends) : (r.onMiss f).Ends := by
  intro hhalted
  rcases onMiss_eq_halted.mp hhalted with hhalted | ⟨missed, hmissed, hhalted⟩
  · exact hr hhalted
  · exact hf missed hmissed hhalted

theorem ends_ofExcept {ε : Type} {e : Except Fault ε} {next : ε → Run α}
    (hnext : ∀ x, e = .ok x → (next x).Ends) : (ofExcept e next).Ends := by
  cases e with
  | ok x => exact hnext x rfl
  | error f => nofun

end Run

namespace Parser

variable {p : Parser α} {q : Parser β} {input : Input} {offset : Int}

theorem ends_of_within (hp : p.Within .unbroken) (h : 0 ≤ offset) (hsize : offset ≤ input.size) :
    (p input offset).Ends := (hp input offset h hsize).broken _

theorem ends_not (hp : (p input offset).Ends) : (p.not input offset).Ends := by
  unfold Parser.not
  dsimp only
  split
  · nofun
  · nofun
  · nofun
  · rename_i why hwhy
    intro hfuel
    obtain rfl := Outcome.halted.inj hfuel
    exact hp hwhy

/-- Parsers one after another end if each does at every offset that those in front of it can lead
to; that it is the first offset means that all of them were idle. -/
theorem ends_sequenceFrom {ps : List (Parser α)} (hps : ∀ p ∈ ps, p.Within .lax) (h : 0 ≤ offset)
    (hsize : offset ≤ input.size)
    (hends : ∀ (i : Nat) (hi : i < ps.length) (next : Int), offset ≤ next → next ≤ input.size →
      (next = offset → ∀ (k : Nat) (hk : k < i), (ps[k] input offset).Idle offset) →
      (ps[i] input next).Ends) (values : List α) :
    (sequenceFrom values ps input offset).Ends := by
  induction ps generalizing values offset with
  | nil => nofun
  | cons p ps ih =>
    obtain ⟨hp, hps⟩ := List.forall_mem_cons.mp hps
    apply Run.ends_onSuccess
    · exact hends 0 (Nat.succ_pos _) offset (Int.le_refl _) hsize fun _ k hk => by omega
    · intro a middle ha
      obtain ⟨hmiddle, hmsize⟩ := hp.of_success h hsize ha
      apply ih hps (by omega) hmsize
      intro i hi next hnext hnsize hidle
      apply hends (i + 1) (Nat.succ_lt_succ hi) next (by omega) hnsize
      intro heq k hk
      have hstay : middle = offset := by omega
      subst hstay
      cases k with
      | zero => exact ⟨a, ha⟩
      | succ k => exact hidle heq k (by omega)

theorem ends_oneOfFrom {ps : List (Parser α)} (hps : ∀ p ∈ ps, (p input offset).Ends)
    (furthest : Int) : (oneOfFrom furthest ps input offset).Ends := by
  induction ps generalizing furthest with
  | nil => nofun
  | cons p ps ih =>
    obtain ⟨hp, hps⟩ := List.forall_mem_cons.mp hps
    exact Run.ends_onMiss hp fun _ _ => ih hps _

section Loops

variable (hp : p.Within .lax)
include hp

theorem ends_repeatExactly {rest : List α → Parser (List α)} {n : Nat} (h : 0 ≤ offset)
    (hsize : offset ≤ input.size)
    (hends : ∀ next, offset ≤ next → next ≤ input.size → (p input next).Ends)
    (hrest : ∀ values next, offset ≤ next → next ≤ input.size → (rest values input next).Ends)
    (values : List α) : (repeatExactly p rest n values input offset).Ends := by
  induction n generalizing values offset with
  | zero => exact hrest values offset (Int.le_refl _) hsize
  | succ n ih =>
    apply Run.ends_onSuccess (hends offset (Int.le_refl _) hsize)
    intro a middle ha
    obtain ⟨hmiddle, hmsize⟩ := hp.of_success h hsize ha
    apply ih (by omega) hmsize
    · exact fun next hnext => hends next (by omega)
    · exact fun values next hnext => hrest values next (by omega)

theorem ends_repeatUpTo {n : Nat} (h : 0 ≤ offset) (hsize : offset ≤ input.size)
    (hends : ∀ next, offset ≤ next → next ≤ input.size → (p input next).Ends) (values : List α)
    (trace : Trace) : (repeatUpTo p input n values trace offset).Ends := by
  induction n generalizing values trace offset with
  | zero => nofun
  | succ n ih =>
    unfold repeatUpTo
    dsimp only
    split
    · rename_i a middle ha
      obtain ⟨hmiddle, hmsize⟩ := hp.of_success h hsize ha
      apply ih (by omega) hmsize
      exact fun next hnext => hends next (by omega)
    · nofun
    · nofun
    · rename_i why hwhy
      intro hfuel
      obtain rfl := Outcome.halted.inj hfuel
      exact hends offset (Int.le_refl _) hsize hwhy

/-- Every further match consumes something, a match that does not is the last. -/
theorem ends_repeatMany {fuel : Nat} (h : 0 ≤ offset) (hsize : offset ≤ input.size)
    (hfuel : (input.size - offset).toNat < fuel)
    (hends : ∀ next, offset ≤ next → next ≤ input.size → (p input next).Ends) (values : List α)
    (trace : Trace) : (repeatMany p input fuel values trace offset).Ends := by
  induction fuel generalizing values trace offset with
  | zero => exact absurd hfuel (Nat.not_lt_zero _)
  | succ fuel ih =>
    unfold repeatMany
    dsimp only
    split
    · rename_i a middle ha
      obtain ⟨hmiddle, hmsize⟩ := hp.of_success h hsize ha
      split
      · nofun
      · apply ih (by omega) hmsize (by omega)
        exact fun next hnext => hends next (by omega)
    · nofun
    · nofun
    · rename_i why hwhy
      intro hfuel
      obtain rfl := Outcome.halted.inj hfuel
      exact hends offset (Int.le_refl _) hsize hwhy

theorem ends_repeated (bounds : Bounds) (h : 0 ≤ offset) (hsize : offset ≤ input.size)
    (hends : ∀ next, offset ≤ next → next ≤ input.size → (p input next).Ends) :
    (p.repeated bounds input offset).Ends := by
  rw [repeated_eq]
  split
  case isFalse => nofun
  apply ends_repeatExactly hp h hsize hends
  intro values next hnext hnsize
  have hends : ∀ later, next ≤ later → later ≤ input.size → (p input later).Ends :=
    fun later hlater => hends later (by omega)
  unfold further
  split
  · exact ends_repeatMany hp (by omega) hnsize (by omega) hends values .nil
  · exact ends_repeatUpTo hp (by omega) hnsize hends values .nil

end Loops
end Parser

namespace Term

section Ends

variable {empty : ι → Prop} {refs : (i : ι) → Parser (τ i)} {input : Input}

/-- The term ends wherever the references on its left do, if all references do further on. -/
def EndsWithRefs (empty : ι → Prop) (refs : (i : ι) → Parser (τ i)) (input : Input)
    (t : Term τ α) : Prop :=
  ∀ offset : Int, 0 ≤ offset → offset ≤ input.size →
    (∀ j, t.LeadsTo empty j → (refs j input offset).Ends) →
    (∀ j next, offset < next → next ≤ input.size → (refs j input next).Ends) →
    (t.parser refs input offset).Ends

theorem EndsWithRefs.next {t : Term τ α} (ht : t.EndsWithRefs empty refs input) {offset next : Int}
    (h : 0 ≤ offset) (hnext : offset ≤ next) (hnsize : next ≤ input.size)
    (hleft : next = offset → ∀ j, t.LeadsTo empty j → (refs j input offset).Ends)
    (hlater : ∀ j next, offset < next → next ≤ input.size → (refs j input next).Ends) :
    (t.parser refs input next).Ends := by
  apply ht next (by omega) hnsize
  · intro j hj
    by_cases heq : next = offset
    · rw [heq]
      exact hleft heq j hj
    · exact hlater j next (by omega) hnsize
  · exact fun j later hlate => hlater j later (by omega)

variable (hwithin : ∀ i, (refs i).Within .lax)
variable (hrefs : ∀ i (offset : Int), 0 ≤ offset → offset ≤ input.size →
  (refs i input offset).Idle offset → empty i)
include hwithin hrefs

/-- Behind a match of another term it ends too, unless that one was idle and something on its own
left does not. -/
theorem EndsWithRefs.behind {p : Term τ α} {q : Term τ β} (hq : q.EndsWithRefs empty refs input)
    {offset middle : Int} {a : α} (h : 0 ≤ offset) (hsize : offset ≤ input.size)
    (ha : (p.parser refs input offset).outcome = .success a middle)
    (hleft : p.MayBeEmpty empty → ∀ j, q.LeadsTo empty j → (refs j input offset).Ends)
    (hlater : ∀ j next, offset < next → next ≤ input.size → (refs j input next).Ends) :
    (q.parser refs input middle).Ends := by
  obtain ⟨hmiddle, hmsize⟩ := (p.parser_within_lax hwithin).of_success h hsize ha
  apply hq.next h hmiddle hmsize _ hlater
  intro heq
  subst heq
  exact hleft (mayBeEmpty_of_idle h hsize hwithin (hrefs · _ h hsize) ⟨a, ha⟩)

theorem endsWithRefs (t : Term τ α) : t.EndsWithRefs empty refs input := by
  have hall : ∀ {α : Type} (t : Term τ α), (t.parser refs).Within .lax :=
    fun t => t.parser_within_lax hwithin
  induction t with
  | satisfy condition =>
    intro offset h hsize _ _
    exact Parser.ends_of_within (Parser.within_satisfy condition) h hsize
  | literal text =>
    intro offset h hsize _ _
    exact Parser.ends_of_within (Parser.within_literal text) h hsize
  | pattern r =>
    intro offset h hsize _ _
    exact Parser.ends_of_within (Parser.within_pattern r) h hsize
  | atEnd =>
    intro offset h hsize _ _
    exact Parser.ends_of_within Parser.within_atEnd h hsize
  | always value => exact fun _ _ _ _ _ => nofun
  | never => exact fun _ _ _ _ _ => nofun
  | fault f => exact fun _ _ _ _ _ => nofun
  | and p q ihp ihq =>
    intro offset h hsize hleft hlater
    apply Run.ends_onSuccess (ihp offset h hsize (fun j hj => hleft j (.inl hj)) hlater)
    intro a middle ha
    apply Run.ends_onSuccess
    · exact ihq.behind hwithin hrefs h hsize ha (fun hp j hj => hleft j (.inr ⟨hp, hj⟩)) hlater
    · nofun
  | sequence n ps ih =>
    intro offset h hsize hleft hlater
    apply Parser.ends_sequenceFrom _ h hsize
    · intro i hi next hnext hnsize hidle
      rw [List.length_ofFn] at hi
      rw [List.getElem_ofFn]
      apply (ih ⟨i, hi⟩).next h hnext hnsize _ hlater
      intro heq j hj
      apply hleft j
      refine ⟨⟨i, hi⟩, ?_, hj⟩
      intro k hk
      have hk := hidle heq k hk
      rw [List.getElem_ofFn] at hk
      exact mayBeEmpty_of_idle h hsize hwithin (hrefs · _ h hsize) hk
    · intro p hp
      obtain ⟨i, rfl⟩ := List.mem_ofFn.mp hp
      exact hall (ps i)
  | map f p ih =>
    intro offset h hsize hleft hlater
    exact Run.ends_onSuccess (ih offset h hsize hleft hlater) fun _ _ _ => nofun
  | mapErr f p ih =>
    intro offset h hsize hleft hlater
    apply Run.ends_onSuccess (ih offset h hsize hleft hlater)
    intro a middle ha
    split
    · nofun
    · exact Run.ends_ofExcept fun _ _ => nofun
  | filter condition p ih =>
    intro offset h hsize hleft hlater
    apply Run.ends_onSuccess (ih offset h hsize hleft hlater)
    intro a middle ha
    split <;> nofun
  | flatMap p f ihp ihf =>
    intro offset h hsize hleft hlater
    apply Run.ends_onSuccess (ihp offset h hsize (fun j hj => hleft j (.inl hj)) hlater)
    intro a middle ha
    apply Run.ends_onSuccess
    · apply (ihf a).behind hwithin hrefs h hsize ha _ hlater
      exact fun hp j hj => hleft j (.inr ⟨hp, a, hj⟩)
    · nofun
  | or p q ihp ihq =>
    intro offset h hsize hleft hlater
    apply Run.ends_onMiss (ihp offset h hsize (fun j hj => hleft j (.inl hj)) hlater)
    intro missed _
    apply Run.ends_onMiss (ihq offset h hsize (fun j hj => hleft j (.inr hj)) hlater)
    nofun
  | oneOf n ps ih =>
    intro offset h hsize hleft hlater
    apply Parser.ends_oneOfFrom
    intro p hp
    obtain ⟨i, rfl⟩ := List.mem_ofFn.mp hp
    exact ih i offset h hsize (fun j hj => hleft j ⟨i, hj⟩) hlater
  | repeated bounds p ih =>
    intro offset h hsize hleft hlater
    apply Parser.ends_repeated (hall p) bounds h hsize
    intro next hnext hnsize
    exact ih.next h hnext hnsize (fun _ => hleft) hlater
  | optional default p ih =>
    intro offset h hsize hleft hlater
    exact Run.ends_onMiss (ih offset h hsize hleft hlater) fun _ _ => nofun
  | lookahead p ih =>
    intro offset h hsize hleft hlater
    exact Run.ends_onSuccess (ih offset h hsize hleft hlater) fun _ _ _ => nofun
  | not p ih =>
    intro offset h hsize hleft hlater
    apply Parser.ends_not
    exact ih offset h hsize hleft hlater
  | commit diagnostic p ih =>
    intro offset h hsize hleft hlater
    apply Run.ends_onMiss (ih offset h hsize hleft hlater)
    intro missed _
    exact Run.ends_ofExcept fun _ _ => nofun
  | named name p ih => exact ih
  | ref i => exact fun offset h hsize hleft hlater => hleft i rfl

end Ends
end Term

namespace Definitions

theorem endsWithRefs_refsAt {defs : Definitions τ} (depth : Nat) (t : Term τ α) (input : Input) :
    t.EndsWithRefs defs.Empty (defs.refsAt depth) input := by
  apply Term.endsWithRefs
  · exact defs.refsAt_within_lax depth
  · exact fun j offset h hsize hidle => empty_of_idle h hsize depth j hidle

section Rank

open Classical in
/-- One more than the number of names that a definition leads to on its left, over any number of
definitions. -/
noncomputable def rank (defs : Definitions τ) (names : Finset ι) (i : ι) : Nat :=
  if (defs i).isSome then (names.filter (Relation.TransGen defs.LeftCalls i)).card + 1 else 0

variable {defs : Definitions τ} {names : Finset ι}

theorem rank_of_none {i : ι} (h : defs i = none) : defs.rank names i = 0 := by
  unfold rank
  rw [h]
  exact if_neg Bool.false_ne_true

open Classical in
theorem rank_of_some {i : ι} {body : Term τ (τ i)} (h : defs i = some body) :
    defs.rank names i = (names.filter (Relation.TransGen defs.LeftCalls i)).card + 1 := by
  unfold rank
  rw [h]
  exact if_pos rfl

variable (hnames : ∀ i body, defs i = some body → i ∈ names)
variable (hacyclic : ¬ defs.LeftRecursive)
include hnames hacyclic

theorem rank_le (i : ι) : defs.rank names i ≤ names.card := by
  classical
  cases hbody : defs i with
  | none =>
    rw [rank_of_none hbody]
    exact Nat.zero_le _
  | some body =>
    rw [rank_of_some hbody]
    apply Finset.card_lt_card
    apply Finset.filter_ssubset.mpr
    exact ⟨i, hnames i body hbody, fun hcycle => hacyclic ⟨i, hcycle⟩⟩

/-- What a definition calls on its left is lower than itself. -/
theorem rank_lt {i j : ι} (hcalls : defs.LeftCalls i j) :
    defs.rank names j < defs.rank names i := by
  classical
  obtain ⟨body, hbody, _⟩ := id hcalls
  rw [rank_of_some hbody]
  cases hbody' : defs j with
  | none =>
    rw [rank_of_none hbody']
    exact Nat.succ_pos _
  | some body' =>
    rw [rank_of_some hbody']
    apply Nat.succ_lt_succ
    apply Finset.card_lt_card
    have hsubset : names.filter (Relation.TransGen defs.LeftCalls j) ⊆
        names.filter (Relation.TransGen defs.LeftCalls i) := by
      intro k hk
      obtain ⟨hk, hjk⟩ := Finset.mem_filter.mp hk
      exact Finset.mem_filter.mpr ⟨hk, .head hcalls hjk⟩
    apply (Finset.ssubset_iff_of_subset hsubset).mpr
    refine ⟨j, Finset.mem_filter.mpr ⟨hnames j body' hbody', .single hcalls⟩, ?_⟩
    intro hj
    exact hacyclic ⟨j, (Finset.mem_filter.mp hj).2⟩

theorem refsAt_ends {input : Input} (depth : Nat) (i : ι) {offset : Int} (h : 0 ≤ offset)
    (hsize : offset ≤ input.size)
    (hdepth : (input.size - offset).toNat * (names.card + 1) + defs.rank names i < depth) :
    (defs.refsAt depth i input offset).Ends := by
  induction depth generalizing i offset with
  | zero => exact absurd hdepth (Nat.not_lt_zero _)
  | succ depth ih =>
    simp only [refsAt]
    cases hbody : defs i with
    | none =>
      intro h
      cases h
    | some body =>
      dsimp only
      rw [parserAt_eq]
      apply endsWithRefs_refsAt depth body input offset h hsize
      · intro j hj
        apply ih j h hsize
        have hlt : defs.rank names j < defs.rank names i :=
          rank_lt hnames hacyclic ⟨body, hbody, hj⟩
        omega
      · intro j next hnext hnsize
        apply ih j (by omega) hnsize
        -- One character less pays for starting over at the highest definition.
        have hrank : defs.rank names j ≤ names.card := rank_le hnames hacyclic j
        have hless : (input.size - next).toNat + 1 ≤ (input.size - offset).toNat := by omega
        have hpay := Nat.mul_le_mul_right (names.card + 1) hless
        rw [Nat.succ_mul] at hpay
        omega

theorem parser_ends {n : Nat} (hn : names.card ≤ n) (t : Term τ α) {input : Input} {offset : Int}
    (h : 0 ≤ offset) (hsize : offset ≤ input.size) : (defs.parser n t input offset).Ends := by
  unfold parser
  rw [parserAt_eq]
  have hdepth : ∀ j (next : Int), 0 ≤ next → next ≤ input.size →
      (defs.refsAt (Definitions.depth n input) j input next).Ends := by
    intro j next hnext hnsize
    apply refsAt_ends hnames hacyclic _ j hnext hnsize
    have hrank : defs.rank names j ≤ names.card := rank_le hnames hacyclic j
    have hmul : (input.size - next).toNat * (names.card + 1) ≤ input.size * (n + 1) :=
      Nat.mul_le_mul (by omega) (by omega)
    unfold Definitions.depth
    rw [Nat.mul_comm (n + 1), Nat.add_mul]
    omega
  apply endsWithRefs_refsAt _ t input offset h hsize
  · exact fun j _ => hdepth j offset h hsize
  · exact fun j next hnext hnsize => hdepth j next (by omega) hnsize

/-- Without left recursion every run ends, and the bound on references that belongs to the number
of definitions is not reached. It breaks down only in ways that a function of the grammar, or the
length of a repetition, is to blame for. -/
theorem exists_yields {n : Nat} (hn : names.card ≤ n) (t : Term τ α) {input : Input} {offset : Int}
    (h : 0 ≤ offset) (hsize : offset ≤ input.size) :
    ∃ r, defs.Yields t input offset r ∧ defs.parser n t input offset = r ∧
      ∀ c : Contract, c.halts .outOfFuel → t.Keeps c defs →
        (∀ i body, defs i = some body → body.Keeps c defs) →
        ∀ why, r.outcome = .halted why → why ≠ .outOfFuel ∧ c.halts why := by
  have hends := parser_ends hnames hacyclic hn t h hsize
  refine ⟨_, ⟨hends, _, rfl⟩, rfl, ?_⟩
  intro c hfuel ht hdefs why hwhy
  constructor
  · intro heq
    subst heq
    exact hends hwhy
  · exact (parserAt_within hfuel hdefs ht _ input offset h hsize).broken why hwhy

/-- A grammar that is not left recursive and whose functions do not break down comes to a value or
an error on every text. -/
theorem evaluate_isOk {n : Nat} (hn : names.card ≤ n) {t : Term τ α} (ht : t.Keeps .strict defs)
    (hdefs : ∀ i body, defs i = some body → body.Keeps .strict defs) (text : Bytes)
    (requests : List Setting) :
    ∃ result, ((defs.parser n t).evaluate text requests).result = .ok result := by
  unfold Parser.evaluate
  cases Settings.ofList requests with
  | error error => exact ⟨_, rfl⟩
  | ok settings =>
    have h : (0 : Int) ≤ (Input.ofBytes settings.filename text).size := Int.natCast_nonneg _
    obtain ⟨r, hr, hrun, hbroken⟩ := exists_yields hnames hacyclic hn t (Int.le_refl 0) h
    have hwithin := hr.within (Int.le_refl 0) h
    dsimp only
    rw [hrun]
    have hreport : ∀ next trailing, 0 ≤ next → ∃ result : Except Error α,
        Outcome.judge.report (Input.ofBytes settings.filename text) next trailing = .ok result := by
      intro next trailing hnext
      obtain ⟨near, hnear⟩ := Outcome.exists_report hnext trailing
      exact ⟨_, hnear⟩
    cases houtcome : r.outcome with
    | success value next =>
      unfold Outcome.judge
      dsimp only
      split
      · exact hreport next true (hwithin.matched value next houtcome).1
      · exact ⟨_, rfl⟩
    | miss next => exact hreport next false (hwithin.missed next houtcome).1
    | fatal error => exact ⟨_, rfl⟩
    | halted why =>
      obtain ⟨hne, heq⟩ := hbroken .strict rfl ht hdefs why houtcome
      exact absurd heq hne

end Rank
end Definitions
end Backtrack
