import Backtrack.Proofs.Regex.Grouping

/-!
# Patterns that are anchored as text

A pattern is anchored by putting text around it. What comes out is the pattern behind the place
where the text begins, provided that the pattern can be read alone. One that cannot be read alone
and yet can be anchored has a parenthesis that closes nothing: it closes the group around it.

This module does NOT say what is matched.
-/

namespace Backtrack.Regex

/-- A small tree at the beginning of a pattern is entered in the account without consequences. -/
theorem check_small {b : Budget} {t : Tree} (hbounds : b.bounds = 0) (hrepeats : b.repeats = 1)
    (hweighs : b.weighs = false) (hmade : b.made ≤ 2) (ht : Budget.factor t = 1)
    (hheight : t.height = 1) : (Budget.check t).run b = .ok ((), b) := by
  have hlimit : sizeLimit = 3355443 := by decide
  have hnote : b.note t = b := by
    obtain ⟨pattern, made, spare, bounds, repeats, weighs⟩ := b
    dsimp only at hrepeats hweighs hmade
    subst hrepeats hweighs
    simp only [Budget.note, ht, hlimit]
    simp
    omega
  refine Budget.check_eq_ok.mpr ⟨?_, ?_, ?_, hnote.symm⟩
  · rw [hbounds]
    exact Nat.zero_le _
  · rw [hnote, hweighs]
    intro h
    cases h
  · rw [hheight]
    decide

theorem readStep_begin (u whole : Bytes) :
    (readStep {} (94 :: u)).run { pattern := whole } =
      .ok (({ top := outermost }, u), { pattern := whole, made := 1 }) := by
  have hcheck : (Budget.check (.check .beginText)).run { pattern := whole, made := 1 } =
      .ok ((), { pattern := whole, made := 1 }) :=
    check_small rfl rfl rfl (Nat.le_succ 1) rfl rfl
  have hpush : (State.push {} (.check .beginText)).run { pattern := whole } =
      .ok ({ top := outermost }, { pattern := whole, made := 1 }) := by
    refine run_bind.mpr ⟨(), { pattern := whole, made := 1 }, rfl, ?_⟩
    refine run_bind.mpr ⟨outermost, { pattern := whole, made := 1 }, ?_, rfl⟩
    refine run_bind.mpr ⟨(), { pattern := whole, made := 1 }, ?_, rfl⟩
    exact run_bind.mpr ⟨(), { pattern := whole, made := 1 }, rfl, hcheck⟩
  refine run_bind.mpr ⟨({ top := outermost }, u), _, ?_, rfl⟩
  exact run_bind.mpr ⟨_, _, hpush, rfl⟩

theorem readStep_open (u whole : Bytes) :
    (readStep { top := outermost } (40 :: 63 :: 58 :: u)).run { pattern := whole, made := 1 } =
      .ok ((State.inside {}, u), { pattern := whole, made := 2 }) := by
  have hcheck : (Budget.check .empty).run { pattern := whole, made := 2 } =
      .ok ((), { pattern := whole, made := 2 }) :=
    check_small rfl rfl rfl (Nat.le_refl 2) rfl rfl
  have hopen : (State.openGroup { top := outermost } false {}).run { pattern := whole, made := 1 } =
      .ok (State.inside {}, { pattern := whole, made := 2 }) := by
    refine run_bind.mpr ⟨(), { pattern := whole, made := 2 }, rfl, ?_⟩
    exact run_bind.mpr ⟨(), { pattern := whole, made := 2 }, hcheck, rfl⟩
  refine run_bind.mpr ⟨(State.inside {}, u), _, ?_, rfl⟩
  refine run_bind.mpr ⟨(':', u), _, rfl, ?_⟩
  exact run_bind.mpr ⟨_, _, hopen, rfl⟩

theorem readAll_front (fuel : Nat) (t whole : Bytes) :
    (readAll (fuel + 2) {} (94 :: 40 :: 63 :: 58 :: t)).run { pattern := whole } =
      (readAll fuel (State.inside {}) t).run { pattern := whole, made := 2 } := by
  simp only [readAll, StateT.run_bind]
  rw [readStep_begin, ok_bind]
  simp only [readAll, StateT.run_bind]
  rw [readStep_open, ok_bind]

theorem readAll_nil (fuel : Nat) (st : State) : readAll fuel st [] = pure st := by
  cases fuel <;> rfl

theorem readAll_cons (fuel : Nat) (st : State) (b : UInt8) (t : Bytes) :
    readAll (fuel + 1) st (b :: t) = (do
      let (st, rest) ← readStep st (b :: t)
      readAll fuel st rest) := rfl

/-- How a pattern inside the group ends: the group is closed. -/
def Closes (st st' : State) (b c : Budget) : Prop :=
  ∃ tree outer d, st.top.close.run b = .ok (tree, d) ∧
    (outermost.push (if st.top.captures then .capture tree else tree)).run d = .ok (outer, c) ∧
    st'.top = outer ∧ st'.around = []

theorem closes_of_readAll {fuel : Nat} {st st' : State} {b c : Budget}
    (h : (readAll (fuel + 1) st.inside [closing]).run b = .ok (st', c)) :
    st'.around ≠ [] ∨ st.around = [] ∧ Closes st st' b c := by
  rw [readAll_cons] at h
  obtain ⟨⟨st₁, left⟩, c₁, hstep, h⟩ := run_bind.mp h
  obtain ⟨⟨st₂, left₂⟩, c₂, hitem, hforget⟩ := run_bind.mp hstep
  obtain ⟨st₃, c₃, hclose, hrest⟩ := run_bind.mp hitem
  cases hrest
  cases hforget
  have hnil : List.drop 1 [closing] = [] := rfl
  rw [hnil] at h
  dsimp only at h
  rw [readAll_nil] at h
  cases h
  obtain ⟨tree, d, htop, hpop⟩ := run_bind.mp hclose
  have hinside : st.inside.around = st.around ++ [outermost] := rfl
  rw [hinside] at hpop
  cases haround : st.around with
  | nil =>
    rw [haround] at hpop
    obtain ⟨outer, c₃, hpush, hreturn⟩ := run_bind.mp hpop
    cases hreturn
    exact .inr ⟨rfl, tree, outer, d, htop, hpush, rfl, rfl⟩
  | cons group around =>
    rw [haround] at hpop
    obtain ⟨outer, c₃, -, hreturn⟩ := run_bind.mp hpop
    cases hreturn
    left
    simp

/-- A pattern is read inside the group with the group still open in the end, or as it is read alone
and with the group closed in the end, or else it closes a group that it did not open. -/
theorem readAll_inside {fuel fuel' : Nat} {st st' : State} {t : Bytes} {b b' c' : Budget}
    (hb : b.Within b') (hfuel : t.length ≤ fuel) (hfuel' : t.length < fuel')
    (h : (readAll fuel' st.inside (t ++ [closing])).run b' = .ok (st', c')) :
    st'.around ≠ [] ∨
      (∃ last c d, (readAll fuel st t).run b = .ok (last, c) ∧ c.Within d ∧ last.around = [] ∧
        Closes last st' d c') ∨
      ∃ piece, (readAll fuel st t).run b = .error ⟨.unexpectedParen, piece⟩ := by
  induction fuel' generalizing fuel st t b b' with
  | zero => omega
  | succ fuel' ih =>
    cases t with
    | nil =>
      rcases closes_of_readAll h with hopen | ⟨haround, hcloses⟩
      · exact .inl hopen
      · refine .inr (.inl ⟨st, b, b', ?_, hb, haround, hcloses⟩)
        rw [readAll_nil]
        rfl
    | cons x t =>
      rw [List.length_cons] at hfuel hfuel'
      obtain ⟨fuel, rfl⟩ : ∃ k, fuel = k + 1 := ⟨fuel - 1, by omega⟩
      rw [List.cons_append, readAll_cons] at h
      obtain ⟨⟨st₁', left'⟩, c₁', hstep', h⟩ := run_bind.mp h
      rw [readAll_cons, StateT.run_bind]
      rcases readStep_follows st x t b b' hb st₁' left' c₁' hstep' with
        ⟨rfl, hopen⟩ | ⟨st₁, left, c₁, hstep, hc, rfl, rfl, hless⟩ | ⟨piece, herror⟩
      · dsimp only at h
        rw [readAll_nil] at h
        cases h
        exact .inl hopen
      · rw [hstep, ok_bind]
        rw [List.length_cons] at hless
        exact ih hc (by omega) (by omega) h
      · rw [herror]
        exact .inr (.inr ⟨piece, rfl⟩)

/-- The patterns that one stands for where it is joined with others. -/
def Tree.parts : Tree → List Tree
  | concat ts => ts
  | t => [t]

theorem Tree.seqs_parts (t : Tree) : seqs (regexes t.parts) = t.regex := by
  cases t <;> rfl

theorem joinLiterals_check (t : Tree) (a : Assertion) :
    joinsLiterals [t, .check a] = false ∧ joinLiterals [t, .check a] = [t, .check a] := by
  cases t <;> exact ⟨rfl, rfl⟩

theorem outermost_push {t : Tree} {outer : Group} {b c : Budget}
    (h : (outermost.push t).run b = .ok (outer, c)) :
    outer = { outermost with items := [t, .check .beginText] } := by
  obtain ⟨u, b₁, -, h⟩ := run_bind.mp h
  cases h
  rfl

/-- The group around a pattern leaves what it matches behind the place where the text begins. -/
theorem outermost_close {t u : Tree} {b c : Budget}
    (h : (Group.close { outermost with items := [t, .check .beginText] }).run b = .ok (u, c)) :
    u = .concat (.check .beginText :: t.parts) := by
  obtain ⟨joined, b₁, hjoin, h⟩ := run_bind.mp h
  obtain ⟨branches, b₂, hbranch, h⟩ := run_bind.mp h
  cases hbranch
  obtain ⟨chosen, b₃, halternatives, h⟩ := run_bind.mp h
  cases halternatives
  obtain ⟨_, b₄, -, h⟩ := run_bind.mp h
  cases h
  unfold Group.join at hjoin
  obtain ⟨hjoins, hitems⟩ := joinLiterals_check t .beginText
  dsimp only at hjoin
  rw [hjoins, hitems, if_neg Bool.false_ne_true] at hjoin
  obtain ⟨_, b₅, hboth, h⟩ := run_bind.mp hjoin
  obtain ⟨_, b₆, -, h⟩ := run_bind.mp h
  cases h
  obtain ⟨_, b₇, -, h⟩ := run_bind.mp hboth
  obtain ⟨_, b₈, -, h⟩ := run_bind.mp h
  cases h
  show Tree.concat (.check .beginText :: (t.parts ++ [])) = _
  rw [List.append_nil]

theorem anchoredSource_eq (pattern : Bytes) :
    anchoredSource pattern = 94 :: 40 :: 63 :: 58 :: (pattern ++ [closing]) := rfl

/-- What a pattern in the group comes to, and what it comes to alone. -/
theorem seqs_of_closes {st st' : State} {t : Tree} {b c d e : Budget} (hb : b.Within c)
    (h : Closes st st' c d) (hclose : st'.top.close.run d = .ok (t, e)) :
    ∃ rs u b', st.top.close.run b = .ok (u, b') ∧ u.regex = seqs rs ∧
      t.regex = seqs (.check .beginText :: rs) := by
  obtain ⟨u, outer, c₁, hinner, hpush, htop, -⟩ := h
  obtain ⟨b', hinner, -⟩ := st.top.steady_close b c hb u c₁ hinner
  rw [htop, outermost_push hpush] at hclose
  rw [outermost_close hclose]
  cases st.top.captures with
  | true => exact ⟨[u.regex], u, b', hinner, rfl, rfl⟩
  | false => exact ⟨Tree.regexes u.parts, u, b', hinner, u.seqs_parts.symm, rfl⟩

/-- A pattern that can be anchored comes to what it comes to alone, behind the place where the text
begins, unless it closes a group that it did not open. -/
theorem read_of_readAnchored {pattern : Bytes} {anchored : Regex}
    (h : readAnchored pattern = .ok anchored) :
    (∃ rs, read pattern = .ok (seqs rs) ∧ anchored = seqs (.check .beginText :: rs)) ∨
      ∃ piece, read pattern = .error ⟨.unexpectedParen, piece⟩ := by
  obtain ⟨⟨t, c'⟩, htree, h⟩ := bind_eq_ok.mp h
  cases h
  obtain ⟨st', d', hall, h⟩ := run_bind.mp htree
  obtain ⟨u, e', hclose, hreturn⟩ := run_bind.mp h
  have hlength : (anchoredSource pattern).length = pattern.length + 3 + 2 := by
    rw [anchoredSource_eq]
    simp
  rw [hlength, anchoredSource_eq, readAll_front] at hall
  have hwithin : Budget.Within { pattern := pattern }
      { pattern := anchoredSource pattern, made := 2 } :=
    ⟨Nat.zero_le 2, rfl, rfl, fun _ => ⟨rfl, rfl⟩⟩
  rcases readAll_inside hwithin (Nat.le_refl _) (by omega) hall with
    hopen | ⟨last, c, d, hread, hc, haround, hcloses⟩ | ⟨piece, herror⟩
  · obtain ⟨group, around, haround⟩ := List.exists_cons_of_ne_nil hopen
    rw [haround] at hreturn
    cases hreturn
  · obtain ⟨rs, v, b', hinner, hv, hu⟩ := seqs_of_closes hc hcloses hclose
    have hend : st'.around = [] := hcloses.choose_spec.choose_spec.choose_spec.2.2.2
    rw [hend] at hreturn
    cases hreturn
    refine .inl ⟨rs, ?_, hu⟩
    refine bind_eq_ok.mpr ⟨(v, b'), ?_, congrArg Except.ok hv⟩
    refine run_bind.mpr ⟨last, c, hread, run_bind.mpr ⟨v, b', hinner, ?_⟩⟩
    rw [haround]
    rfl
  · refine .inr ⟨piece, ?_⟩
    unfold read readTree
    rw [StateT.run_bind, herror]
    rfl

end Backtrack.Regex
