import Backtrack.Proofs.Parser.Choices

/-!
# Repetition

A repetition follows a chain of matches, each of which starts where the one before it ends, and goes
on as long as it can: first the mandatory matches, then the others. `Chain` are the chains that it
may follow and `ChainEnd` the ways in which it leaves one. There is one way at most, and that is
what the repetition comes to.

A chain may have any number of matches if no greatest number is given. `repeated` stops counting
where more matches would be made than there are bytes, which takes a parser that leaves the text;
`RepeatsTo` is without this bound.

Nothing is shown here of repetitions with more mandatory matches than can be held, except that they
break down before the first of them.
-/

namespace Backtrack

namespace Parser

variable {α : Type}

/-- No match ends in front of where it starts. -/
def Forward (p : Parser α) (input : Input) : Prop :=
  ∀ offset a next, (p input offset).outcome = .success a next → offset ≤ next

/-- A repetition that makes as many further matches as `fuel` allows at the offset where they start,
if the bounds do not say how many. -/
def repeatedFor (fuel : Input → Int → Nat) (bounds : Bounds) (p : Parser α) : Parser (List α) :=
  fun input offset =>
    if bounds.Holdable then
      repeatExactly p
        (fun values input next =>
          match bounds.most with
          | none => repeatMany p input (fuel input next) values .nil next
          | some most => repeatUpTo p input (most - bounds.least) values .nil next)
        bounds.least [] input offset
    else .fault .unholdable

/-- What a repetition comes to if it may make as many matches as it can. -/
def RepeatsTo (p : Parser α) (bounds : Bounds) (input : Input) (offset : Int)
    (o : Outcome (List α)) : Prop :=
  o ≠ .halted .outOfFuel ∧ ∃ fuel, (p.repeatedFor fuel bounds input offset).outcome = o

/-- Matches one after another from an offset to another, with these values, behind `done` others.
Without an upper bound every one that is not mandatory consumes something. -/
inductive Chain (p : Parser α) (bounds : Bounds) (input : Input) :
    (done : Nat) → Int → List α → Int → Prop where
  | nil {done : Nat} {offset : Int} : Chain p bounds input done offset [] offset
  | cons {done : Nat} {offset middle next : Int} {a : α} {as : List α}
      (hmatch : (p input offset).outcome = .success a middle)
      (hstrict : bounds.most = none → bounds.least ≤ done → offset < middle)
      (hrest : Chain p bounds input (done + 1) middle as next) :
      Chain p bounds input done offset (a :: as) next

/-- After `count` matches there is no further one to make. -/
def Stops (p : Parser α) (bounds : Bounds) (input : Input) (count : Nat) (offset : Int) : Prop :=
  bounds.most = some count ∨ (∃ missed, (p input offset).outcome = .miss missed) ∨
    bounds.most = none ∧ ∃ a, (p input offset).outcome = .success a offset

/-- What a repetition comes to that has made these matches and does not make another. -/
inductive ChainEnd (p : Parser α) (bounds : Bounds) (input : Input) (as : List α) (offset : Int) :
    Outcome (List α) → Prop where
  | success (hleast : bounds.least ≤ as.length) (hmost : ∀ m ∈ bounds.most, as.length ≤ m)
      (hstops : Stops p bounds input as.length offset) :
      ChainEnd p bounds input as offset (.success as offset)
  | miss {missed : Int} (hleast : as.length < bounds.least)
      (hmiss : (p input offset).outcome = .miss missed) :
      ChainEnd p bounds input as offset (.miss missed)
  | fatal {e : ParseError} (hmost : ∀ m ∈ bounds.most, as.length < m)
      (hfatal : (p input offset).outcome = .fatal e) :
      ChainEnd p bounds input as offset (.fatal e)
  | halted {why : Halt} (hmost : ∀ m ∈ bounds.most, as.length < m)
      (hhalted : (p input offset).outcome = .halted why) :
      ChainEnd p bounds input as offset (.halted why)

variable {p : Parser α} {bounds : Bounds} {input : Input} {done : Nat} {offset middle next : Int}
  {as values : List α} {o : Outcome (List α)}

/-- Matches that all consume something are no more than the bytes they consume. -/
theorem Chain.length_le (hmost : bounds.most = none) (hdone : bounds.least ≤ done)
    (h : Chain p bounds input done offset as next) : offset + as.length ≤ next := by
  induction h with
  | nil => simp
  | cons _ hstrict _ ih =>
    have hlt := hstrict hmost hdone
    have hle := ih (by omega)
    rw [List.length_cons]
    omega

theorem ChainEnd.length_le (h : ChainEnd p bounds input as offset o) :
    ∀ m ∈ bounds.most, as.length ≤ m := by
  intro m hm
  cases h with
  | success _ hmost => exact hmost m hm
  | miss hleast => exact Nat.le_of_lt (Nat.lt_of_lt_of_le hleast (bounds.valid m hm))
  | fatal hmost | halted hmost => exact Nat.le_of_lt (hmost m hm)

/-- Behind matches with these values, latest first, a chain leads to this outcome. -/
def Follows (p : Parser α) (bounds : Bounds) (input : Input) (values : List α) (offset : Int)
    (o : Outcome (List α)) : Prop :=
  ∃ as next, Chain p bounds input values.length offset as next ∧
    ChainEnd p bounds input (values.reverse ++ as) next o

theorem Follows.here (h : ChainEnd p bounds input values.reverse offset o) :
    Follows p bounds input values offset o := by
  rw [← List.append_nil values.reverse] at h
  exact ⟨[], offset, .nil, h⟩

theorem Follows.cons {a : α} (hmatch : (p input offset).outcome = .success a middle)
    (hstrict : bounds.most = none → bounds.least ≤ values.length → offset < middle)
    (h : Follows p bounds input (a :: values) middle o) :
    Follows p bounds input values offset o := by
  obtain ⟨as, next, hchain, hend⟩ := h
  rw [List.reverse_cons, List.append_assoc, List.singleton_append] at hend
  exact ⟨a :: as, next, .cons hmatch hstrict hchain, hend⟩

theorem follows_of_repeatMany (hp : p.Forward input) (hmost : bounds.most = none) {fuel : Nat}
    {trace : Trace} (hleast : bounds.least ≤ values.length)
    (h : (repeatMany p input fuel values trace offset).outcome = o)
    (hfuel : o ≠ .halted .outOfFuel) : Follows p bounds input values offset o := by
  have hcount : bounds.least ≤ values.reverse.length := by simpa using hleast
  induction fuel generalizing values trace offset with
  | zero => exact absurd h.symm hfuel
  | succ fuel ih =>
    unfold repeatMany at h
    dsimp only at h
    split at h
    · rename_i a middle hmatch
      split at h
      · rename_i heq
        subst heq h
        exact .here (.success hcount (by simp [hmost]) (.inr (.inr ⟨hmost, a, hmatch⟩)))
      · rename_i hne
        have hle := hp _ _ _ hmatch
        have hleast' : bounds.least ≤ (a :: values).length := by simp; omega
        exact .cons hmatch (fun _ _ => by omega) (ih hleast' h (by simpa using hleast'))
    · rename_i missed hmiss
      subst h
      exact .here (.success hcount (by simp [hmost]) (.inr (.inl ⟨missed, hmiss⟩)))
    · rename_i e hfatal
      subst h
      exact .here (.fatal (by simp [hmost]) hfatal)
    · rename_i why hhalted
      subst h
      exact .here (.halted (by simp [hmost]) hhalted)

theorem follows_of_repeatUpTo {n : Nat} (hmost : bounds.most = some (values.length + n))
    {trace : Trace} (hleast : bounds.least ≤ values.length)
    (h : (repeatUpTo p input n values trace offset).outcome = o) :
    Follows p bounds input values offset o := by
  have hcount : bounds.least ≤ values.reverse.length := by simpa using hleast
  induction n generalizing values trace offset with
  | zero =>
    subst h
    exact .here (.success hcount (by simp [hmost]) (.inl (by simp [hmost])))
  | succ n ih =>
    have hbelow : ∀ m ∈ bounds.most, values.reverse.length < m := by simp [hmost]
    unfold repeatUpTo at h
    dsimp only at h
    split at h
    · rename_i a middle hmatch
      have hmost' : bounds.most = some ((a :: values).length + n) := by
        rw [hmost, List.length_cons]
        congr 1
        omega
      have hleast' : bounds.least ≤ (a :: values).length := by simp; omega
      exact .cons hmatch (by simp [hmost]) (ih hmost' hleast' h (by simpa using hleast'))
    · rename_i missed hmiss
      subst h
      exact .here (.success hcount (by simp [hmost]) (.inr (.inl ⟨missed, hmiss⟩)))
    · rename_i e hfatal
      subst h
      exact .here (.fatal hbelow hfatal)
    · rename_i why hhalted
      subst h
      exact .here (.halted hbelow hhalted)

theorem follows_of_repeatExactly {rest : List α → Parser (List α)} {n : Nat}
    (hn : values.length + n = bounds.least)
    (hrest : ∀ values offset, values.length = bounds.least →
      (rest values input offset).outcome = o → Follows p bounds input values offset o)
    (h : (repeatExactly p rest n values input offset).outcome = o) :
    Follows p bounds input values offset o := by
  induction n generalizing values offset with
  | zero => exact hrest values offset hn h
  | succ n ih =>
    have hbelow : ∀ m ∈ bounds.most, values.reverse.length < m := by
      intro m hm
      have hvalid := bounds.valid m hm
      rw [List.length_reverse]
      omega
    have hless : values.reverse.length < bounds.least := by
      rw [List.length_reverse]
      omega
    unfold repeatExactly at h
    rw [Run.outcome_onSuccess] at h
    cases houtcome : (p input offset).outcome with
    | success a middle =>
      rw [houtcome] at h
      exact .cons houtcome (by omega) (ih (by rw [List.length_cons]; omega) h)
    | miss missed =>
      rw [houtcome] at h
      subst h
      exact .here (.miss hless houtcome)
    | fatal e =>
      rw [houtcome] at h
      subst h
      exact .here (.fatal hbelow houtcome)
    | halted why =>
      rw [houtcome] at h
      subst h
      exact .here (.halted hbelow houtcome)

theorem repeatMany_of_chain (hmost : bounds.most = none) {fuel : Nat} {trace : Trace}
    (hleast : bounds.least ≤ values.length)
    (hchain : Chain p bounds input values.length offset as next)
    (hend : ChainEnd p bounds input (values.reverse ++ as) next o) (hfuel : as.length < fuel) :
    (repeatMany p input fuel values trace offset).outcome = o := by
  induction as generalizing values offset fuel trace with
  | nil =>
    obtain ⟨fuel, rfl⟩ : ∃ fuel', fuel = fuel' + 1 := ⟨fuel - 1, by omega⟩
    cases hchain
    rw [List.append_nil] at hend
    unfold repeatMany
    cases hend with
    | success _ _ hstops =>
      rcases hstops with hsome | ⟨missed, hmiss⟩ | ⟨_, a, hmatch⟩
      · rw [hmost] at hsome
        cases hsome
      · simp [hmiss]
      · simp [hmatch]
    | miss hless =>
      rw [List.length_reverse] at hless
      omega
    | fatal _ hfatal => simp [hfatal]
    | halted _ hhalted => simp [hhalted]
  | cons a as ih =>
    obtain ⟨fuel, rfl⟩ : ∃ fuel', fuel = fuel' + 1 := ⟨fuel - 1, by omega⟩
    rw [List.length_cons] at hfuel
    cases hchain with
    | @cons _ _ middle _ _ _ hmatch hstrict hrest =>
      have hne : middle ≠ offset := by
        have hlt := hstrict hmost hleast
        omega
      unfold repeatMany
      simp only [hmatch, if_neg hne]
      refine ih (by rw [List.length_cons]; omega) hrest ?_ (by omega)
      rwa [List.reverse_cons, List.append_assoc, List.singleton_append]

theorem repeatUpTo_of_chain {n : Nat} (hmost : bounds.most = some (values.length + n))
    {trace : Trace} (hleast : bounds.least ≤ values.length)
    (hchain : Chain p bounds input values.length offset as next)
    (hend : ChainEnd p bounds input (values.reverse ++ as) next o) :
    (repeatUpTo p input n values trace offset).outcome = o := by
  have hlength := hend.length_le _ hmost
  rw [List.length_append, List.length_reverse] at hlength
  induction as generalizing values offset n trace with
  | nil =>
    cases hchain
    rw [List.append_nil] at hend
    cases hend with
    | success _ _ hstops =>
      cases n with
      | zero => rfl
      | succ n =>
        unfold repeatUpTo
        rcases hstops with hsome | ⟨missed, hmiss⟩ | ⟨hnone, _⟩
        · rw [hmost, List.length_reverse] at hsome
          have heq := Option.some.inj hsome
          omega
        · simp [hmiss]
        · rw [hmost] at hnone
          cases hnone
    | miss hless =>
      rw [List.length_reverse] at hless
      omega
    | fatal hbelow hfatal =>
      have hlt := hbelow _ hmost
      rw [List.length_reverse] at hlt
      obtain ⟨n, rfl⟩ : ∃ n', n = n' + 1 := ⟨n - 1, by omega⟩
      simp [repeatUpTo, hfatal]
    | halted hbelow hhalted =>
      have hlt := hbelow _ hmost
      rw [List.length_reverse] at hlt
      obtain ⟨n, rfl⟩ : ∃ n', n = n' + 1 := ⟨n - 1, by omega⟩
      simp [repeatUpTo, hhalted]
  | cons a as ih =>
    rw [List.length_cons] at hlength
    obtain ⟨n, rfl⟩ : ∃ n', n = n' + 1 := ⟨n - 1, by omega⟩
    cases hchain with
    | cons hmatch _ hrest =>
      have hmost' : bounds.most = some ((a :: values).length + n) := by
        rw [hmost, List.length_cons]
        congr 1
        omega
      unfold repeatUpTo
      simp only [hmatch]
      refine ih hmost' (by rw [List.length_cons]; omega) hrest ?_ ?_
      · rwa [List.reverse_cons, List.append_assoc, List.singleton_append]
      · rw [List.length_cons]
        omega

theorem repeatExactly_of_chain (hp : p.Forward input) {rest : List α → Parser (List α)} {n : Nat}
    (hn : values.length + n = bounds.least)
    (hrest : ∀ values middle bs, values.length = bounds.least → offset ≤ middle →
      bs.length ≤ as.length → Chain p bounds input values.length middle bs next →
      ChainEnd p bounds input (values.reverse ++ bs) next o →
      (rest values input middle).outcome = o)
    (hchain : Chain p bounds input values.length offset as next)
    (hend : ChainEnd p bounds input (values.reverse ++ as) next o) :
    (repeatExactly p rest n values input offset).outcome = o := by
  induction n generalizing values offset as with
  | zero => exact hrest values offset as hn (Int.le_refl _) (Nat.le_refl _) hchain hend
  | succ n ih =>
    unfold repeatExactly
    rw [Run.outcome_onSuccess]
    cases hchain with
    | nil =>
      rw [List.append_nil] at hend
      cases hend with
      | success hleast =>
        rw [List.length_reverse] at hleast
        omega
      | miss _ hmiss => rw [hmiss, Outcome.andThen]
      | fatal _ hfatal => rw [hfatal, Outcome.andThen]
      | halted _ hhalted => rw [hhalted, Outcome.andThen]
    | @cons _ _ middle _ a as hmatch _ hchain =>
      rw [hmatch, Outcome.andThen]
      rw [← List.singleton_append, ← List.append_assoc, ← List.reverse_cons] at hend
      have hle := hp _ _ _ hmatch
      refine ih (by rw [List.length_cons]; omega) ?_ hchain hend
      intro values' middle' bs hvalues hmiddle hlength
      exact hrest values' middle' bs hvalues (by omega) (by rw [List.length_cons]; omega)

theorem repeatedFor_eq (hheld : bounds.Holdable) (fuel : Input → Int → Nat) :
    p.repeatedFor fuel bounds input offset = repeatExactly p
      (fun values input next =>
        match bounds.most with
        | none => repeatMany p input (fuel input next) values .nil next
        | some most => repeatUpTo p input (most - bounds.least) values .nil next)
      bounds.least [] input offset := if_pos hheld

theorem exists_chain_of_repeatedFor (hp : p.Forward input) (hheld : bounds.Holdable)
    {fuel : Input → Int → Nat} (h : (p.repeatedFor fuel bounds input offset).outcome = o)
    (hfuel : o ≠ .halted .outOfFuel) :
    ∃ as next, Chain p bounds input 0 offset as next ∧ ChainEnd p bounds input as next o := by
  rw [repeatedFor_eq hheld] at h
  refine follows_of_repeatExactly (Nat.zero_add _) (fun values offset hvalues h => ?_) h
  cases hmost : bounds.most with
  | none =>
    rw [hmost] at h
    exact follows_of_repeatMany hp hmost (Nat.le_of_eq hvalues.symm) h hfuel
  | some most =>
    rw [hmost] at h
    have hvalid := bounds.valid most hmost
    refine follows_of_repeatUpTo ?_ (Nat.le_of_eq hvalues.symm) h
    rw [hmost, hvalues, Nat.add_sub_cancel' hvalid]

theorem repeatedFor_of_chain (hp : p.Forward input) (hheld : bounds.Holdable)
    {fuel : Input → Int → Nat} (hchain : Chain p bounds input 0 offset as next)
    (hend : ChainEnd p bounds input as next o)
    (hfuel : ∀ middle bs, bounds.most = none → offset ≤ middle → bs.length ≤ as.length →
      Chain p bounds input bounds.least middle bs next → bs.length < fuel input middle) :
    (p.repeatedFor fuel bounds input offset).outcome = o := by
  rw [repeatedFor_eq hheld]
  refine repeatExactly_of_chain hp (Nat.zero_add _) ?_ hchain hend
  intro values middle bs hvalues hmiddle hlength hchain hend
  have hleast := Nat.le_of_eq hvalues.symm
  cases hmost : bounds.most with
  | none =>
    rw [hvalues] at hchain
    have hbs := hfuel middle bs hmost hmiddle hlength hchain
    rw [← hvalues] at hchain
    exact repeatMany_of_chain hmost hleast hchain hend hbs
  | some most =>
    have hvalid := bounds.valid most hmost
    refine repeatUpTo_of_chain ?_ hleast hchain hend
    rw [hmost, hvalues, Nat.add_sub_cancel' hvalid]

theorem repeatsTo_iff (hp : p.Forward input) (hheld : bounds.Holdable) :
    p.RepeatsTo bounds input offset o ↔ o ≠ .halted .outOfFuel ∧
      ∃ as next, Chain p bounds input 0 offset as next ∧ ChainEnd p bounds input as next o := by
  constructor
  · rintro ⟨hfuel, fuel, h⟩
    exact ⟨hfuel, exists_chain_of_repeatedFor hp hheld h hfuel⟩
  · rintro ⟨hfuel, as, next, hchain, hend⟩
    refine ⟨hfuel, fun _ _ => as.length + 1, repeatedFor_of_chain hp hheld hchain hend ?_⟩
    exact fun _ _ _ _ hlength _ => Nat.lt_succ_of_le hlength

theorem repeatsTo_success (hp : p.Forward input) (hheld : bounds.Holdable) :
    p.RepeatsTo bounds input offset (.success as next) ↔
      Chain p bounds input 0 offset as next ∧ bounds.least ≤ as.length ∧
        (∀ m ∈ bounds.most, as.length ≤ m) ∧ Stops p bounds input as.length next := by
  rw [repeatsTo_iff hp hheld]
  constructor
  · rintro ⟨-, _, _, hchain, ⟨hleast, hmost, hstops⟩⟩
    exact ⟨hchain, hleast, hmost, hstops⟩
  · rintro ⟨hchain, hleast, hmost, hstops⟩
    exact ⟨nofun, as, next, hchain, .success hleast hmost hstops⟩

theorem repeatsTo_miss (hp : p.Forward input) (hheld : bounds.Holdable)
    {missed : Int} : p.RepeatsTo bounds input offset (.miss missed) ↔
      ∃ as next, Chain p bounds input 0 offset as next ∧ as.length < bounds.least ∧
        (p input next).outcome = .miss missed := by
  rw [repeatsTo_iff hp hheld]
  constructor
  · rintro ⟨-, as, next, hchain, hend⟩
    cases hend with
    | miss hleast hmiss => exact ⟨as, next, hchain, hleast, hmiss⟩
  · rintro ⟨as, next, hchain, hleast, hmiss⟩
    exact ⟨nofun, as, next, hchain, .miss hleast hmiss⟩

theorem repeatsTo_fatal (hp : p.Forward input) (hheld : bounds.Holdable)
    {e : ParseError} : p.RepeatsTo bounds input offset (.fatal e) ↔
      ∃ as next, Chain p bounds input 0 offset as next ∧ (∀ m ∈ bounds.most, as.length < m) ∧
        (p input next).outcome = .fatal e := by
  rw [repeatsTo_iff hp hheld]
  constructor
  · rintro ⟨-, as, next, hchain, hend⟩
    cases hend with
    | fatal hmost hfatal => exact ⟨as, next, hchain, hmost, hfatal⟩
  · rintro ⟨as, next, hchain, hmost, hfatal⟩
    exact ⟨nofun, as, next, hchain, .fatal hmost hfatal⟩

/-- No match goes beyond the end of the text, unless it starts there. -/
def Inside (p : Parser α) (input : Input) : Prop :=
  ∀ offset a next, (p input offset).outcome = .success a next → next ≤ max offset input.size

theorem Chain.le_max (hinside : p.Inside input) (h : Chain p bounds input done offset as next) :
    next ≤ max offset input.size := by
  induction h with
  | nil => exact Int.le_max_left _ _
  | cons hmatch _ _ ih =>
    have hmiddle := hinside _ _ _ hmatch
    omega

theorem repeated_eq_repeatedFor : p.repeated bounds input offset =
    p.repeatedFor (fun input next => (input.size - next).toNat + 1) bounds input offset := rfl

/-- The bound on the number of matches is never reached inside the text. -/
theorem repeatsTo_repeated (hp : p.Forward input) (hinside : p.Inside input)
    (hheld : bounds.Holdable) : p.RepeatsTo bounds input offset o ↔
      o ≠ .halted .outOfFuel ∧ (p.repeated bounds input offset).outcome = o := by
  rw [repeated_eq_repeatedFor]
  constructor
  · intro h
    obtain ⟨hfuel, as, next, hchain, hend⟩ := (repeatsTo_iff hp hheld).mp h
    refine ⟨hfuel, repeatedFor_of_chain hp hheld hchain hend ?_⟩
    intro middle bs hmost hmiddle _ hbs
    have hnext := hchain.le_max hinside
    have hlength := hbs.length_le hmost (Nat.le_refl _)
    omega
  · rintro ⟨hfuel, h⟩
    exact ⟨hfuel, _, h⟩

/-- Mandatory matches alone are a sequence. -/
theorem repeatExactly_eq_sequenceFrom {rest : List α → Parser (List α)}
    (hrest : ∀ values offset, rest values input offset = .success values.reverse offset) (n : Nat)
    (values : List α) (offset : Int) : repeatExactly p rest n values input offset =
      sequenceFrom values (List.replicate n p) input offset := by
  induction n generalizing values offset with
  | zero => exact hrest values offset
  | succ n ih =>
    rw [List.replicate_succ]
    unfold repeatExactly sequenceFrom
    simp only [ih]

theorem repeated_eq_sequence (hheld : bounds.Holdable)
    (hmost : bounds.most = some bounds.least) : p.repeated bounds input offset =
      sequence (List.replicate bounds.least p) input offset := by
  rw [repeated_eq, if_pos hheld]
  refine repeatExactly_eq_sequenceFrom (fun values offset => ?_) _ [] offset
  unfold further
  rw [hmost]
  simp only [Nat.sub_self]
  rfl

/-- A repetition is the mandatory matches and then a greedy chain of others. If it is to match
exactly `n` times, it runs as a sequence of `n` copies. It matches with the values and at the end of
a chain that has as many matches as the bounds demand and cannot go on. It misses or aborts, as its
parser does, where a chain is cut: by a miss among the mandatory matches, or by an abort before the
greatest number is reached. -/
theorem repetition (p : Parser α) (bounds : Bounds) (input : Input) (offset : Int)
    (hp : p.Forward input) (hheld : bounds.Holdable) :
    (bounds.most = some bounds.least → p.repeated bounds input offset =
      sequence (List.replicate bounds.least p) input offset) ∧
    (∀ as next, p.RepeatsTo bounds input offset (.success as next) ↔
      p.Chain bounds input 0 offset as next ∧ bounds.least ≤ as.length ∧
        (∀ m ∈ bounds.most, as.length ≤ m) ∧ p.Stops bounds input as.length next) ∧
    (∀ missed, p.RepeatsTo bounds input offset (.miss missed) ↔
      ∃ as next, p.Chain bounds input 0 offset as next ∧ as.length < bounds.least ∧
        (p input next).outcome = .miss missed) ∧
    (∀ e, p.RepeatsTo bounds input offset (.fatal e) ↔
      ∃ as next, p.Chain bounds input 0 offset as next ∧ (∀ m ∈ bounds.most, as.length < m) ∧
        (p input next).outcome = .fatal e) ∧
    (∀ o, o ≠ .halted .outOfFuel → (p.repeated bounds input offset).outcome = o →
      p.RepeatsTo bounds input offset o) ∧
    (p.Inside input → ∀ o, p.RepeatsTo bounds input offset o →
      (p.repeated bounds input offset).outcome = o) := by
  refine ⟨repeated_eq_sequence hheld, fun _ _ => repeatsTo_success hp hheld,
    fun _ => repeatsTo_miss hp hheld, fun _ => repeatsTo_fatal hp hheld, ?_, ?_⟩
  · exact fun o hfuel h => ⟨hfuel, _, repeated_eq_repeatedFor ▸ h⟩
  · exact fun hinside o h => ((repeatsTo_repeated hp hinside hheld).mp h).2

theorem forward_satisfy (condition : Char → Bool) (input : Input) :
    (satisfy condition).Forward input := by
  intro offset a next h
  unfold satisfy Run.ofExcept at h
  split at h
  · dsimp only at h
    split at h
    · cases h
    · split at h
      · cases h
        omega
      · cases h
  · cases h

/-- Of three letters, the first two are read. -/
theorem repetition_letters :
    (satisfy (· = 'a')).RepeatsTo ⟨1, some 3, none, by decide⟩ (Input.ofBytes [] "aab") 0
      (.success ['a', 'a'] 2) := by
  let p := satisfy (· = 'a')
  let input := Input.ofBytes [] "aab"
  have hfirst : (p input 0).outcome = .success 'a' 1 := rfl
  have hsecond : (p input 1).outcome = .success 'a' 2 := rfl
  have hthird : (p input 2).outcome = .miss 2 := rfl
  obtain ⟨-, hsuccess, -⟩ := repetition p ⟨1, some 3, none, by decide⟩ input 0 (forward_satisfy _ _)
    (by decide)
  refine (hsuccess ['a', 'a'] 2).mpr ⟨?_, by decide, by decide, .inr (.inl ⟨2, hthird⟩)⟩
  exact .cons hfirst nofun (.cons hsecond nofun .nil)

def tooMany : Bounds := ⟨2 ^ 50, none, Bounds.roomFor 4, by simp⟩

/-- A letter is missing at once, but so many of them are demanded that their values cannot be held;
the repetition breaks down without looking. -/
theorem repetition_unholdable :
    (satisfy (· = 'a')).Forward (Input.ofBytes [] "b") ∧
    (satisfy (· = 'a')).Chain tooMany (Input.ofBytes [] "b") 0 0 [] 0 ∧
    (satisfy (· = 'a') (Input.ofBytes [] "b") 0).outcome = .miss 0 ∧
    ((satisfy (· = 'a')).repeated tooMany (Input.ofBytes [] "b") 0).outcome =
      .halted (.fault .unholdable) ∧
    ¬ (satisfy (· = 'a')).RepeatsTo tooMany (Input.ofBytes [] "b") 0 (.miss 0) := by
  refine ⟨forward_satisfy _ _, .nil, rfl, ?_, ?_⟩
  · rw [repeated_eq, if_neg (by decide)]
    rfl
  · rintro ⟨-, fuel, h⟩
    rw [repeatedFor, if_neg (by decide)] at h
    cases h

end Parser

end Backtrack
