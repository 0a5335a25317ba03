import Backtrack.Proofs.Parser.Repetition

/-!
# Lists with separators

A list with separators is an item and then a repetition of a separator with an item behind it. It
takes as many items as follow one another, each reached over a separator, and ends behind the last
of them: a separator without an item, or a step that consumes nothing, is given back. `Links` are
the steps behind the first item, and `LinksEnd` says that there is no further one.

As for repetitions, a list may have any number of items. `SeparatesTo` is without the bound that
`repeated` sets, which only parsers that leave the text can reach.
-/

namespace Backtrack

namespace Parser

variable {α β : Type}

/-- A separator with an item behind it, of which the item counts. -/
def behindSeparator (p : Parser α) (sep : Parser β) : Parser α := (sep.and p).map Prod.snd

/-- An item, and as many further ones behind separators as `fuel` allows. -/
def separatedFor (fuel : Input → Int → Nat) (p : Parser α) (sep : Parser β) : Parser (List α) :=
  (p.and ((p.behindSeparator sep).repeatedFor fuel .any)).map Term.consPair

/-- What one item or more with separators between them come to, however many there are. -/
def SeparatesTo (p : Parser α) (sep : Parser β) (input : Input) (offset : Int)
    (o : Outcome (List α)) : Prop :=
  o ≠ .halted .outOfFuel ∧ ∃ fuel, (p.separatedFor fuel sep input offset).outcome = o

/-- What any number of items with separators between them come to. -/
def SeparatesFreelyTo (p : Parser α) (sep : Parser β) (input : Input) (offset : Int)
    (o : Outcome (List α)) : Prop :=
  o ≠ .halted .outOfFuel ∧ ∃ fuel, ((p.separatedFor fuel sep).optional [] input offset).outcome = o

/-- Items behind separators, one after another, from the end of one item to the end of another. Each
step consumes something. -/
inductive Links (p : Parser α) (sep : Parser β) (input : Input) : Int → List α → Int → Prop where
  | nil {offset : Int} : Links p sep input offset [] offset
  | cons {offset middle next last : Int} {b : β} {a : α} {as : List α}
      (hsep : (sep input offset).outcome = .success b middle)
      (hitem : (p input middle).outcome = .success a next) (hstrict : offset < next)
      (hrest : Links p sep input next as last) :
      Links p sep input offset (a :: as) last

/-- There is no further step: the separator is missing, or the item behind it is, or both match
without consuming anything. -/
inductive LinksEnd (p : Parser α) (sep : Parser β) (input : Input) (offset : Int) : Prop where
  | separator {missed : Int} (hsep : (sep input offset).outcome = .miss missed)
  | item {middle missed : Int} {b : β} (hsep : (sep input offset).outcome = .success b middle)
      (hitem : (p input middle).outcome = .miss missed)
  | still {middle : Int} {b : β} {a : α} (hsep : (sep input offset).outcome = .success b middle)
      (hitem : (p input middle).outcome = .success a offset)

/-- The next step aborts, in the separator or in the item behind it. -/
inductive LinksAbort (p : Parser α) (sep : Parser β) (input : Input) (offset : Int)
    (e : ParseError) : Prop where
  | separator (hsep : (sep input offset).outcome = .fatal e)
  | item {middle : Int} {b : β} (hsep : (sep input offset).outcome = .success b middle)
      (hitem : (p input middle).outcome = .fatal e)

variable {p : Parser α} {sep : Parser β} {input : Input} {offset next missed : Int} {a : α}
  {as : List α} {e : ParseError} {o : Outcome (List α)}

theorem outcome_behindSeparator : (p.behindSeparator sep input offset).outcome =
    (sep input offset).outcome.andThen fun _ middle => (p input middle).outcome := by
  unfold behindSeparator map and
  rw [Run.outcome_onSuccess, Run.outcome_onSuccess]
  cases (sep input offset).outcome with
  | success b middle =>
    simp only [Outcome.andThen]
    rw [Run.outcome_onSuccess]
    cases (p input middle).outcome <;> rfl
  | miss | fatal | halted => rfl

theorem behindSeparator_success : (p.behindSeparator sep input offset).outcome = .success a next ↔
    ∃ b middle, (sep input offset).outcome = .success b middle ∧
      (p input middle).outcome = .success a next := by
  rw [outcome_behindSeparator]
  cases (sep input offset).outcome <;> simp [Outcome.andThen]

theorem behindSeparator_miss : (p.behindSeparator sep input offset).outcome = .miss missed ↔
    (sep input offset).outcome = .miss missed ∨ ∃ b middle,
      (sep input offset).outcome = .success b middle ∧
        (p input middle).outcome = .miss missed := by
  rw [outcome_behindSeparator]
  cases (sep input offset).outcome <;> simp [Outcome.andThen]

theorem behindSeparator_fatal : (p.behindSeparator sep input offset).outcome = .fatal e ↔
    LinksAbort p sep input offset e := by
  rw [outcome_behindSeparator]
  constructor
  · intro h
    cases hsep : (sep input offset).outcome with
    | success b middle =>
      rw [hsep] at h
      exact .item hsep h
    | fatal e' =>
      rw [hsep] at h
      cases h
      exact .separator hsep
    | miss | halted =>
      rw [hsep] at h
      cases h
  · rintro (hsep | ⟨hsep, hitem⟩)
    · rw [hsep]
      rfl
    · rw [hsep]
      exact hitem

theorem Forward.behindSeparator (hp : p.Forward input) (hsep : sep.Forward input) :
    (p.behindSeparator sep).Forward input := by
  intro offset a next h
  obtain ⟨b, middle, hb, ha⟩ := behindSeparator_success.mp h
  exact (hsep _ _ _ hb).trans (hp _ _ _ ha)

theorem Inside.behindSeparator (hp : p.Inside input) (hsep : sep.Inside input) :
    (p.behindSeparator sep).Inside input := by
  intro offset a next h
  obtain ⟨b, middle, hb, ha⟩ := behindSeparator_success.mp h
  have hmiddle := hsep _ _ _ hb
  have hnext := hp _ _ _ ha
  omega

theorem stops_iff {count : Nat} :
    Stops (p.behindSeparator sep) .any input count offset ↔ LinksEnd p sep input offset := by
  constructor
  · rintro (h | ⟨missed, h⟩ | ⟨-, a, h⟩)
    · cases h
    · rcases behindSeparator_miss.mp h with hsep | ⟨b, middle, hsep, hitem⟩
      · exact .separator hsep
      · exact .item hsep hitem
    · obtain ⟨b, middle, hsep, hitem⟩ := behindSeparator_success.mp h
      exact .still hsep hitem
  · rintro (hsep | ⟨hsep, hitem⟩ | ⟨hsep, hitem⟩)
    · exact .inr (.inl ⟨_, behindSeparator_miss.mpr (.inl hsep)⟩)
    · exact .inr (.inl ⟨_, behindSeparator_miss.mpr (.inr ⟨_, _, hsep, hitem⟩)⟩)
    · exact .inr (.inr ⟨rfl, _, behindSeparator_success.mpr ⟨_, _, hsep, hitem⟩⟩)

theorem chain_iff {done : Nat} : Chain (p.behindSeparator sep) .any input done offset as next ↔
    Links p sep input offset as next := by
  constructor
  · intro h
    induction h with
    | nil => exact .nil
    | cons hmatch hstrict _ ih =>
      obtain ⟨b, middle, hsep, hitem⟩ := behindSeparator_success.mp hmatch
      exact .cons hsep hitem (hstrict rfl (Nat.zero_le _)) ih
  · intro h
    induction h generalizing done with
    | nil => exact .nil
    | cons hsep hitem hstrict _ ih =>
      exact .cons (behindSeparator_success.mpr ⟨_, _, hsep, hitem⟩) (fun _ _ => hstrict) ih

theorem outcome_separatedFor {fuel : Input → Int → Nat} :
    (p.separatedFor fuel sep input offset).outcome =
      (p input offset).outcome.andThen fun a middle =>
        ((p.behindSeparator sep).repeatedFor fuel .any input middle).outcome.map (a :: ·) := by
  unfold separatedFor map and
  rw [Run.outcome_onSuccess, Run.outcome_onSuccess]
  cases (p input offset).outcome with
  | success a middle =>
    simp only [Outcome.andThen]
    rw [Run.outcome_onSuccess]
    cases ((p.behindSeparator sep).repeatedFor fuel .any input middle).outcome <;> rfl
  | miss | fatal | halted => rfl

/-- Behind a first item, a list is what the repetition of further ones comes to; without a first
item it is what looking for one came to. -/
theorem separatesTo_iff : p.SeparatesTo sep input offset o ↔
    (∃ v middle rest, (p input offset).outcome = .success v middle ∧
      (p.behindSeparator sep).RepeatsTo .any input middle rest ∧ o = rest.map (v :: ·)) ∨
    (∃ missed, (p input offset).outcome = .miss missed ∧ o = .miss missed) ∨
    (∃ e, (p input offset).outcome = .fatal e ∧ o = .fatal e) ∨
    (∃ why, why ≠ .outOfFuel ∧ (p input offset).outcome = .halted why ∧ o = .halted why) := by
  constructor
  · rintro ⟨hfuel, fuel, h⟩
    rw [outcome_separatedFor] at h
    cases hfirst : (p input offset).outcome with
    | success v middle =>
      rw [hfirst, Outcome.andThen] at h
      refine .inl ⟨v, middle, _, rfl, ⟨?_, fuel, rfl⟩, h.symm⟩
      intro hrest
      rw [hrest] at h
      exact hfuel h.symm
    | miss missed =>
      rw [hfirst, Outcome.andThen] at h
      exact .inr (.inl ⟨missed, rfl, h.symm⟩)
    | fatal e =>
      rw [hfirst, Outcome.andThen] at h
      exact .inr (.inr (.inl ⟨e, rfl, h.symm⟩))
    | halted why =>
      rw [hfirst, Outcome.andThen] at h
      subst h
      exact .inr (.inr (.inr ⟨why, fun heq => hfuel (congrArg _ heq), rfl, rfl⟩))
  · have hwithout : ∀ o : Outcome (List α), o ≠ .halted .outOfFuel →
        (p input offset).outcome.andThen (fun _ _ => .miss 0) = o →
        (∀ v middle, (p input offset).outcome ≠ .success v middle) →
        p.SeparatesTo sep input offset o := by
      intro o hfuel h hfirst
      refine ⟨hfuel, fun _ _ => 0, ?_⟩
      rw [outcome_separatedFor, ← h]
      cases hcase : (p input offset).outcome with
      | success v middle => exact absurd hcase (hfirst v middle)
      | miss | fatal | halted => rfl
    rintro (⟨v, middle, rest, hfirst, ⟨hrest, fuel, h⟩, rfl⟩ | ⟨missed, hfirst, rfl⟩ |
      ⟨e, hfirst, rfl⟩ | ⟨why, hwhy, hfirst, rfl⟩)
    · refine ⟨?_, fuel, ?_⟩
      · cases rest with
        | halted why => exact fun heq => hrest (congrArg _ (Outcome.halted.inj heq))
        | success | miss | fatal =>
          intro heq
          cases heq
      · rw [outcome_separatedFor, hfirst, Outcome.andThen, h]
    · refine hwithout _ ?_ (by rw [hfirst]; rfl) ?_
      · intro heq
        cases heq
      · intro v middle heq
        rw [hfirst] at heq
        cases heq
    · refine hwithout _ ?_ (by rw [hfirst]; rfl) ?_
      · intro heq
        cases heq
      · intro v middle heq
        rw [hfirst] at heq
        cases heq
    · refine hwithout _ ?_ (by rw [hfirst]; rfl) ?_
      · intro heq
        exact hwhy (Outcome.halted.inj heq)
      · intro v middle heq
        rw [hfirst] at heq
        cases heq

section Whole

variable (hp : p.Forward input) (hsep : sep.Forward input)
include hp hsep

theorem separatesTo_success {vs : List α} : p.SeparatesTo sep input offset (.success vs next) ↔
    ∃ v middle vs', vs = v :: vs' ∧ (p input offset).outcome = .success v middle ∧
      Links p sep input middle vs' next ∧ LinksEnd p sep input next := by
  have hrepeats : ∀ middle as, (p.behindSeparator sep).RepeatsTo .any input middle
      (.success as next) ↔ _ := fun _ _ =>
    repeatsTo_success (hp.behindSeparator hsep) Bounds.holdable_any
  rw [separatesTo_iff]
  constructor
  · rintro (⟨v, middle, rest, hfirst, hrest, h⟩ | ⟨_, _, h⟩ | ⟨_, _, h⟩ | ⟨_, _, _, h⟩)
    · cases rest with
      | success as last =>
        cases h
        obtain ⟨hchain, -, -, hstops⟩ := (hrepeats middle as).mp hrest
        exact ⟨v, middle, as, rfl, hfirst, chain_iff.mp hchain, stops_iff.mp hstops⟩
      | miss | fatal | halted => cases h
    all_goals cases h
  · rintro ⟨v, middle, as, rfl, hfirst, hlinks, hend⟩
    exact .inl ⟨v, middle, .success as next, hfirst, (hrepeats middle as).mpr
      ⟨chain_iff.mpr hlinks, Nat.zero_le _, nofun, stops_iff.mpr hend⟩, rfl⟩

theorem separatesTo_miss : p.SeparatesTo sep input offset (.miss missed) ↔
    (p input offset).outcome = .miss missed := by
  rw [separatesTo_iff]
  constructor
  · rintro (⟨v, middle, rest, hfirst, hrest, h⟩ | ⟨_, hfirst, h⟩ | ⟨_, _, h⟩ | ⟨_, _, _, h⟩)
    · cases rest with
      | miss last =>
        -- A repetition without mandatory matches does not miss.
        obtain ⟨as, _, -, hless, -⟩ :=
          (repeatsTo_miss (hp.behindSeparator hsep) Bounds.holdable_any).mp hrest
        exact absurd hless (Nat.not_lt_zero as.length)
      | success | fatal | halted => cases h
    · cases h
      exact hfirst
    all_goals cases h
  · exact fun hfirst => .inr (.inl ⟨missed, hfirst, rfl⟩)

theorem separatesTo_fatal : p.SeparatesTo sep input offset (.fatal e) ↔
    (p input offset).outcome = .fatal e ∨ ∃ v middle vs last,
      (p input offset).outcome = .success v middle ∧ Links p sep input middle vs last ∧
        LinksAbort p sep input last e := by
  have hrepeats : ∀ middle, (p.behindSeparator sep).RepeatsTo .any input middle (.fatal e) ↔ _ :=
    fun _ => repeatsTo_fatal (hp.behindSeparator hsep) Bounds.holdable_any
  rw [separatesTo_iff]
  constructor
  · rintro (⟨v, middle, rest, hfirst, hrest, h⟩ | ⟨_, _, h⟩ | ⟨_, hfirst, h⟩ | ⟨_, _, _, h⟩)
    · cases rest with
      | fatal e' =>
        cases h
        obtain ⟨as, last, hchain, -, hfatal⟩ := (hrepeats middle).mp hrest
        exact .inr ⟨v, middle, as, last, hfirst, chain_iff.mp hchain,
          behindSeparator_fatal.mp hfatal⟩
      | success | miss | halted => cases h
    · cases h
    · cases h
      exact .inl hfirst
    · cases h
  · rintro (hfirst | ⟨v, middle, as, last, hfirst, hlinks, habort⟩)
    · exact .inr (.inr (.inl ⟨e, hfirst, rfl⟩))
    · exact .inl ⟨v, middle, .fatal e, hfirst, (hrepeats middle).mpr
        ⟨as, last, chain_iff.mpr hlinks, nofun, behindSeparator_fatal.mpr habort⟩, rfl⟩

end Whole

theorem outcome_optional (default : α) :
    (p.optional default input offset).outcome =
      match (p input offset).outcome with
      | .miss _ => .success default offset
      | o => o := by
  unfold optional Run.onMiss
  generalize p input offset = r
  obtain ⟨outcome, trace⟩ := r
  cases outcome <;> rfl

/-- An empty list stands where there is no first item; everything else stays as it is. -/
theorem separatesFreelyTo_iff : p.SeparatesFreelyTo sep input offset o ↔
    (∃ missed, p.SeparatesTo sep input offset (.miss missed)) ∧ o = .success [] offset ∨
      p.SeparatesTo sep input offset o ∧ ∀ missed, o ≠ .miss missed := by
  constructor
  · rintro ⟨hfuel, fuel, h⟩
    rw [outcome_optional] at h
    cases hlist : (p.separatedFor fuel sep input offset).outcome with
    | miss missed =>
      rw [hlist] at h
      exact .inl ⟨⟨missed, by simp, fuel, hlist⟩, h.symm⟩
    | success | fatal | halted =>
      rw [hlist] at h
      subst h
      exact .inr ⟨⟨hfuel, fuel, hlist⟩, by simp⟩
  · rintro (⟨⟨missed, -, fuel, h⟩, rfl⟩ | ⟨⟨hfuel, fuel, h⟩, hmiss⟩)
    · exact ⟨by simp, fuel, by rw [outcome_optional, h]⟩
    · refine ⟨hfuel, fuel, ?_⟩
      rw [outcome_optional, h]
      cases o with
      | miss missed => exact absurd rfl (hmiss missed)
      | success | fatal | halted => rfl

/-- The bound on the number of items is never reached inside the text. -/
theorem separatedFor_of_separatesTo (hp : p.Forward input) (hsep : sep.Forward input)
    (hpin : p.Inside input) (hsepin : sep.Inside input)
    (h : p.SeparatesTo sep input offset o) :
    (p.separatedFor (fun input next => (input.size - next).toNat + 1) sep input offset).outcome =
      o := by
  obtain ⟨hfuel, fuel, h⟩ := h
  rw [outcome_separatedFor] at h ⊢
  cases hfirst : (p input offset).outcome with
  | success v middle =>
    rw [hfirst, Outcome.andThen] at h
    generalize hrest : ((p.behindSeparator sep).repeatedFor fuel .any input middle).outcome = o'
      at h
    have hfuel' : o' ≠ .halted .outOfFuel := by
      rintro rfl
      exact hfuel h.symm
    have hrepeats := (repeatsTo_repeated (hp.behindSeparator hsep) (hpin.behindSeparator hsepin)
      Bounds.holdable_any).mp ⟨hfuel', fuel, hrest⟩
    rw [Outcome.andThen, ← repeated_eq_repeatedFor, hrepeats.2]
    exact h
  | miss | fatal | halted =>
    rw [hfirst] at h
    exact h

/-- Items with separators between them are the longest list of items that each follow the one before
over a separator. The list ends behind the last of them, where no further step consumes anything. It
is missing only where the first item is, and it aborts exactly where an item or a separator does.
Where a list may be empty, it is empty instead of missing, and is the same list otherwise. This is
what the terms come to, unless more items are read than there are bytes. -/
theorem separated_list {ι : Type} {τ : ι → Type} (refs : (i : ι) → Parser (τ i)) (item : Term τ α)
    (separator : Term τ β) (input : Input) (offset : Int)
    (hp : (item.parser refs).Forward input) (hsep : (separator.parser refs).Forward input) :
    (∀ vs next, (item.parser refs).SeparatesTo (separator.parser refs) input offset
        (.success vs next) ↔
      ∃ v middle vs', vs = v :: vs' ∧
        (item.parser refs input offset).outcome = .success v middle ∧
        Links (item.parser refs) (separator.parser refs) input middle vs' next ∧
        LinksEnd (item.parser refs) (separator.parser refs) input next) ∧
    (∀ missed, (item.parser refs).SeparatesTo (separator.parser refs) input offset
        (.miss missed) ↔ (item.parser refs input offset).outcome = .miss missed) ∧
    (∀ e, (item.parser refs).SeparatesTo (separator.parser refs) input offset (.fatal e) ↔
      (item.parser refs input offset).outcome = .fatal e ∨ ∃ v middle vs last,
        (item.parser refs input offset).outcome = .success v middle ∧
        Links (item.parser refs) (separator.parser refs) input middle vs last ∧
        LinksAbort (item.parser refs) (separator.parser refs) input last e) ∧
    (∀ o, (item.parser refs).SeparatesFreelyTo (separator.parser refs) input offset o ↔
      (∃ missed, (item.parser refs).SeparatesTo (separator.parser refs) input offset
        (.miss missed)) ∧ o = .success [] offset ∨
      (item.parser refs).SeparatesTo (separator.parser refs) input offset o ∧
        ∀ missed, o ≠ .miss missed) ∧
    (∀ missed, ¬ (item.parser refs).SeparatesFreelyTo (separator.parser refs) input offset
      (.miss missed)) ∧
    (∀ o, o ≠ .halted .outOfFuel →
      (((item.sepBy1 separator).parser refs input offset).outcome = o →
        (item.parser refs).SeparatesTo (separator.parser refs) input offset o) ∧
      (((item.sepBy0 separator).parser refs input offset).outcome = o →
        (item.parser refs).SeparatesFreelyTo (separator.parser refs) input offset o)) ∧
    ((item.parser refs).Inside input → (separator.parser refs).Inside input → ∀ o,
      ((item.parser refs).SeparatesTo (separator.parser refs) input offset o →
        ((item.sepBy1 separator).parser refs input offset).outcome = o) ∧
      ((item.parser refs).SeparatesFreelyTo (separator.parser refs) input offset o →
        ((item.sepBy0 separator).parser refs input offset).outcome = o)) := by
  refine ⟨fun _ _ => separatesTo_success hp hsep, fun _ => separatesTo_miss hp hsep,
    fun _ => separatesTo_fatal hp hsep, fun _ => separatesFreelyTo_iff, ?_, ?_, ?_⟩
  · intro missed h
    rcases separatesFreelyTo_iff.mp h with ⟨-, h⟩ | ⟨-, h⟩
    · cases h
    · exact h missed rfl
  · intro o hfuel
    exact ⟨fun h => ⟨hfuel, _, h⟩, fun h => ⟨hfuel, _, h⟩⟩
  · intro hpin hsepin o
    have hlist : ∀ o, (item.parser refs).SeparatesTo (separator.parser refs) input offset o →
        ((item.sepBy1 separator).parser refs input offset).outcome = o :=
      fun _ => separatedFor_of_separatesTo hp hsep hpin hsepin
    refine ⟨hlist o, fun h => ?_⟩
    refine (outcome_optional []).trans ?_
    rcases separatesFreelyTo_iff.mp h with ⟨⟨missed, hmiss⟩, rfl⟩ | ⟨hsame, hmiss⟩
    · have hrun : ((item.sepBy1 separator).parser refs input offset).outcome = .miss missed :=
        hlist _ hmiss
      rw [hrun]
    · have hrun : ((item.sepBy1 separator).parser refs input offset).outcome = o :=
        hlist _ hsame
      rw [hrun]
      cases o with
      | miss missed => exact absurd rfl (hmiss missed)
      | success | fatal | halted => rfl

/-- Behind the second item there is a separator that no item follows. The list ends in front of
it. -/
theorem separated_list_dangling :
    (satisfy Char.isDigit).SeparatesTo (satisfy (· = ',')) (Input.ofBytes [] "1,2,") 0
      (.success ['1', '2'] 3) := by
  let input := Input.ofBytes [] "1,2,"
  have hone : (satisfy Char.isDigit input 0).outcome = .success '1' 1 := rfl
  have hcomma : (satisfy (· = ',') input 1).outcome = .success ',' 2 := rfl
  have htwo : (satisfy Char.isDigit input 2).outcome = .success '2' 3 := rfl
  have hlast : (satisfy (· = ',') input 3).outcome = .success ',' 4 := rfl
  have hnone : (satisfy Char.isDigit input 4).outcome = .miss 4 := rfl
  obtain ⟨hsuccess, -⟩ := separated_list (τ := fun _ : Unit => Char) (fun _ => never)
    (.satisfy Char.isDigit) (.satisfy (· = ',')) input 0 (forward_satisfy _ _)
    (forward_satisfy _ _)
  exact (hsuccess ['1', '2'] 3).mpr ⟨'1', 1, ['2'], rfl, hone, .cons hcomma htwo (by decide) .nil,
    .item hlast hnone⟩

end Parser

end Backtrack
