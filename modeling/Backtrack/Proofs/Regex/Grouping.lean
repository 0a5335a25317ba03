import Backtrack.Proofs.Regex.Accounts
import Backtrack.Proofs.Regex.Closing

/-!
# Patterns inside a group

A pattern is read alone and inside a group, with the place where the text begins in front and a
closing parenthesis behind. Step by step the two readings are in the same state, but for the
surroundings, as long as the parenthesis is neither taken in nor anticipated by one in the pattern
that closes nothing.

This module does NOT say what the pattern comes to.
-/

namespace Backtrack.Regex

/-- The group around an anchored pattern: the place where the text begins has been read. -/
def outermost : Group := { outer := {}, items := [.check .beginText] }

def State.inside (st : State) : State :=
  { st with
    around := st.around ++ [outermost]
    lastRepeat := st.lastRepeat.map (· ++ [closing]) }

namespace State

variable (st : State)

theorem around_inside : st.inside.around ≠ [] := by
  simp [inside]

theorem inside_push (t : Tree) : st.inside.push t = inside <$> st.push t := by
  simp only [push, map_bind]
  rfl

theorem inside_pushClass (c : CharClass) : st.inside.pushClass c = inside <$> st.pushClass c := by
  simp only [pushClass, map_bind]
  rfl

theorem inside_pushCode (n : Nat) : st.inside.pushCode n = inside <$> st.pushCode n :=
  st.inside_push _

theorem inside_nextBranch : st.inside.nextBranch = inside <$> st.nextBranch := by
  simp only [nextBranch, map_bind]
  rfl

theorem inside_openGroup (captures : Bool) (flags : Flags) :
    st.inside.openGroup captures flags = inside <$> st.openGroup captures flags := by
  simp only [openGroup, map_bind]
  apply bind_congr
  intro _
  have hitems : st.inside.top = st.top := rfl
  rw [hitems]
  split
  · simp only [map_bind]
    rfl
  · simp only [map_bind]
    rfl

end State

/-- A step of reading a text alone, and one inside the group with the parenthesis behind the text.
The one inside takes the parenthesis in, with a group still open, or both do the same; or else the
one alone stops at a parenthesis that closes nothing. -/
def Follows (t : Bytes) (m m' : Building (State × Bytes)) : Prop :=
  ∀ b b' : Budget, b.Within b' → ∀ st' left' c', m'.run b' = .ok ((st', left'), c') →
    (left' = [] ∧ st'.around ≠ []) ∨
    (∃ st left c, m.run b = .ok ((st, left), c) ∧ c.Within c' ∧ st' = st.inside ∧
      left' = left ++ [closing] ∧ left.length < t.length) ∨
    ∃ piece, m.run b = .error ⟨.unexpectedParen, piece⟩

theorem run_lift {α : Type} {m : Reading α} {b c : Budget} {a : α} :
    (liftM m : Building α).run b = .ok (a, c) ↔ m = .ok a ∧ c = b := by
  cases m with
  | error e =>
    constructor
    · intro h
      cases h
    · rintro ⟨h, -⟩
      cases h
  | ok x =>
    constructor
    · intro h
      cases h
      exact ⟨rfl, rfl⟩
    · rintro ⟨h, rfl⟩
      cases h
      rfl

namespace Follows

variable {t left : Bytes}

theorem run_map {α β : Type} {m : Building α} {f : α → β} {b c : Budget} {y : β} :
    (f <$> m).run b = .ok (y, c) ↔ ∃ x, m.run b = .ok (x, c) ∧ y = f x := by
  rw [map_eq_pure_bind, run_bind]
  constructor
  · rintro ⟨x, d, hm, h⟩
    cases h
    exact ⟨x, hm, rfl⟩
  · rintro ⟨x, hm, rfl⟩
    exact ⟨x, c, hm, rfl⟩

theorem same {m : Building State} (hm : Steady m) (hless : left.length < t.length) :
    Follows t (do return (← m, left)) (do return (← State.inside <$> m, left ++ [closing])) := by
  intro b b' hb st' left' c' h
  obtain ⟨st₁, c₁, hmap, h⟩ := run_bind.mp h
  cases h
  obtain ⟨st, hrun', rfl⟩ := run_map.mp hmap
  obtain ⟨c, hrun, hc⟩ := hm b b' hb st c' hrun'
  exact .inr (.inl ⟨st, left, c, run_bind.mpr ⟨st, c, hrun, rfl⟩, hc, rfl, rfl, hless⟩)

theorem swallow {m : Building (State × Bytes)} {m' : Building State} :
    Follows t m (do return (← State.inside <$> m', [])) := by
  intro b b' hb st' left' c' h
  obtain ⟨st₁, c₁, hrun, h⟩ := run_bind.mp h
  cases h
  obtain ⟨st, hrun, rfl⟩ := run_map.mp hrun
  exact .inl ⟨rfl, st.around_inside⟩

theorem fail {m : Building (State × Bytes)} (e : Error) : Follows t m (throw e) := by
  intro b b' hb st' left' c' h
  cases h

theorem fail_bind {α : Type} {m : Building (State × Bytes)} {f : α → Building (State × Bytes)}
    (e : Error) : Follows t m (throw e >>= f) := by
  intro b b' hb st' left' c' h
  cases h

theorem done {st : State} (hless : left.length < t.length) :
    Follows t (pure (st, left)) (pure (st.inside, left ++ [closing])) := by
  intro b b' hb st' left' c' h
  cases h
  exact .inr (.inl ⟨st, left, b, rfl, hb, rfl, rfl, hless⟩)

theorem bind {α : Type} {m : Building α} {k k' : α → Building (State × Bytes)} (hm : Steady m)
    (hk : ∀ a, Follows t (k a) (k' a)) : Follows t (m >>= k) (m >>= k') := by
  intro b b' hb st' left' d' h
  obtain ⟨a, c', hm', hrun⟩ := run_bind.mp h
  obtain ⟨c, hm, hc⟩ := hm b b' hb a c' hm'
  rw [StateT.run_bind, hm]
  exact hk a c c' hc st' left' d' hrun

theorem ite {c : Prop} [Decidable c] {m m' n n' : Building (State × Bytes)} (hm : Follows t m m')
    (hn : Follows t n n') : Follows t (if c then m else n) (if c then m' else n') := by
  split
  · exact hm
  · exact hn

theorem ended {m : Building (State × Bytes)} {st : State} :
    Follows t m (pure (st.inside, [])) := by
  intro b b' hb st' left' c' h
  cases h
  exact .inl ⟨rfl, st.around_inside⟩

/-- A check inside the group counts for nothing if what follows it fails. -/
theorem aside {α : Type} {m : Building (State × Bytes)} {n : Building α} {e : Error} :
    Follows t m (n >>= fun _ => throw e) := by
  intro b b' hb st' left' c' h
  obtain ⟨_, _, _, h⟩ := run_bind.mp h
  cases h

/-- A step that reads a character first. -/
theorem readChar {u : Bytes} {k k' : Char × Bytes → Building (State × Bytes)} (hu : u ≠ [])
    (hk : ∀ c left, left.length < u.length → Follows t (k (c, left)) (k' (c, left ++ [closing]))) :
    Follows t (do let r ← nextChar u; k r) (do let r ← nextChar (u ++ [closing]); k' r) := by
  intro b b' hb st' left' d' h
  obtain ⟨⟨c, rest'⟩, b₁, hlift, hrun⟩ := run_bind.mp h
  obtain ⟨hread', rfl⟩ := run_lift.mp hlift
  rcases nextChar_closing hread' with ⟨h, -⟩ | ⟨rest, rfl, hread, hless⟩
  · exact absurd h hu
  · rw [hread]
    exact hk c rest hless b b₁ hb st' left' d' hrun

/-- A repetition that was just read may be forgotten. -/
theorem forget {m m' : Building (State × Bytes)} (h : Follows t m m') :
    Follows t (do let (st, left) ← m; return ({ st with lastRepeat := none }, left))
      (do let (st, left) ← m'; return ({ st with lastRepeat := none }, left)) := by
  intro b b' hb st' left' c' hrun
  obtain ⟨⟨st₁, left₁⟩, c₁, hm', hrun⟩ := run_bind.mp hrun
  cases hrun
  rcases h b b' hb st₁ left' c' hm' with h | ⟨st, left, c, hm, hc, rfl, hleft⟩ | ⟨piece, herror⟩
  · exact .inl h
  · refine .inr (.inl ⟨{ st with lastRepeat := none }, left, c, ?_, hc, rfl, hleft⟩)
    exact run_bind.mpr ⟨_, c, hm, rfl⟩
  · refine .inr (.inr ⟨piece, ?_⟩)
    rw [StateT.run_bind, herror]
    rfl

/-- A step that reads something first and does something with it. -/
theorem read {α : Type} {r r' : Reading (α × Bytes)} (hr : Survives t r r')
    {f f' : α → Building State} (hf : ∀ a, Steady (f a)) (hf' : ∀ a, f' a = State.inside <$> f a) :
    Follows t (do let (a, left) ← r; return (← f a, left))
      (do let (a, left) ← r'; return (← f' a, left)) := by
  intro b b' hb st' left' c' h
  obtain ⟨⟨a, left₁⟩, b₁, hlift, hrun⟩ := run_bind.mp h
  obtain ⟨hread', rfl⟩ := run_lift.mp hlift
  dsimp only at hrun
  rw [hf' a] at hrun
  rcases hr a left₁ hread' with rfl | ⟨left, rfl, hread, hless⟩
  · exact swallow b b₁ hb st' left' c' hrun
  · rw [hread]
    exact same (hf a) hless b b₁ hb st' left' c' hrun

/-- A step that may read something first, and goes on in another way where nothing is found. -/
theorem readIfAny {α : Type} {r r' : Reading (Option (α × Bytes))} (hr : SurvivesIfAny t r r')
    {k k' : Option (α × Bytes) → Building (State × Bytes)} {f : α → Building State}
    (hf : ∀ a, Steady (f a)) (hk : ∀ a left, k (some (a, left)) = do return (← f a, left))
    (hk' : ∀ a left, k' (some (a, left)) = do return (← State.inside <$> f a, left))
    (hnone : Follows t (k none) (k' none)) :
    Follows t (do let found ← r; k found) (do let found ← r'; k' found) := by
  intro b b' hb st' left' c' h
  obtain ⟨found, b₁, hlift, hrun⟩ := run_bind.mp h
  obtain ⟨hread', rfl⟩ := run_lift.mp hlift
  cases found with
  | none =>
    rw [hr.nothing hread']
    exact hnone b b₁ hb st' left' c' hrun
  | some found =>
    obtain ⟨a, left₁⟩ := found
    rw [hk'] at hrun
    rcases hr.something a left₁ hread' with rfl | ⟨left, rfl, hread, hless⟩
    · exact swallow b b₁ hb st' left' c' hrun
    · rw [hread]
      show _ ∨ (∃ st left₂ c, (k (some (a, left))).run b = _ ∧ _) ∨ ∃ piece, (k _).run b = _
      rw [hk]
      exact same (hf a) hless b b₁ hb st' left' c' hrun

end Follows

theorem takeWhile_closing (t : Bytes) :
    (t ++ [closing]).takeWhile Bytes.isDigit = t.takeWhile Bytes.isDigit ∧
      (t ++ [closing]).dropWhile Bytes.isDigit = t.dropWhile Bytes.isDigit ++ [closing] := by
  induction t with
  | nil => exact ⟨rfl, rfl⟩
  | cons b t ih =>
    rw [List.cons_append, List.takeWhile_cons, List.dropWhile_cons, List.takeWhile_cons,
      List.dropWhile_cons, ih.1, ih.2]
    constructor
    · rfl
    · split <;> rfl

theorem readCount?_closing (t : Bytes) :
    readCount? (t ++ [closing]) = (readCount? t).map fun (n, left) => (n, left ++ [closing]) := by
  obtain ⟨htake, hdrop⟩ := takeWhile_closing t
  unfold readCount?
  dsimp only
  rw [htake, hdrop]
  split
  · rfl
  · split <;> rfl

theorem length_readCount?_le {t left : Bytes} {n : Option Nat}
    (h : readCount? t = some (n, left)) : left.length ≤ t.length := by
  unfold readCount? at h
  dsimp only at h
  split at h
  · cases h
  · split at h
    · cases h
    · cases h
      exact (List.dropWhile_sublist _).length_le

def boundsBehind (least : Option Nat) : Bytes → Option (Option (Nat × Option Nat) × Bytes)
  | 125 :: left => some (least.map fun n => (n, some n), left)
  | 44 :: 125 :: left => some (least.map fun n => (n, none), left)
  | 44 :: rest => do
    let (most, rest) ← readCount? rest
    match rest with
    | 125 :: left => some (least.bind fun n => most.map fun m => (n, some m), left)
    | _ => none
  | _ => none

theorem readBounds?_eq (b : UInt8) (t : Bytes) :
    readBounds? (b :: t) = (readCount? t).bind fun (least, rest) => boundsBehind least rest := by
  rfl

theorem boundsBehind_comma {least : Option Nat} {t : Bytes} (ht : ∀ left, t ≠ 125 :: left) :
    boundsBehind least (44 :: t) = (readCount? t).bind fun (most, rest) =>
      match rest with
      | 125 :: left => some (least.bind fun n => most.map fun m => (n, some m), left)
      | _ => none := by
  rw [boundsBehind]
  · rfl
  · exact ht

theorem boundsBehind_closing (least : Option Nat) (t : Bytes) :
    boundsBehind least (t ++ [closing]) =
      (boundsBehind least t).map fun (bounds, left) => (bounds, left ++ [closing]) := by
  rcases t with _ | ⟨a, t⟩
  · rfl
  by_cases hend : a = 125
  · subst hend
    rfl
  by_cases hcomma : a = 44
  · subst hcomma
    by_cases hopen : ∃ left, t = 125 :: left
    · obtain ⟨left, rfl⟩ := hopen
      rfl
    have hopen' : ∀ left, t ++ [closing] ≠ 125 :: left := by
      cases t with
      | nil => simp [closing]
      | cons b t =>
        intro left h
        rw [List.cons_append, List.cons.injEq] at h
        exact hopen ⟨t, by rw [h.1]⟩
    rw [List.cons_append, boundsBehind_comma hopen',
      boundsBehind_comma fun left h => hopen ⟨left, h⟩, readCount?_closing]
    cases readCount? t with
    | none => rfl
    | some r =>
      obtain ⟨most, rest⟩ := r
      rcases rest with _ | ⟨b, rest⟩
      · rfl
      · by_cases hb : b = 125
        · subst hb
          rfl
        · simp [hb]
  · simp [boundsBehind, hend, hcomma]

theorem length_boundsBehind {least : Option Nat} {t left : Bytes}
    {bounds : Option (Nat × Option Nat)} (h : boundsBehind least t = some (bounds, left)) :
    left.length < t.length := by
  unfold boundsBehind at h
  split at h
  · cases h
    exact Nat.lt_succ_self _
  · cases h
    simp only [List.length_cons]
    omega
  · obtain ⟨⟨most, rest⟩, hcount, h⟩ := Option.bind_eq_some_iff.mp h
    dsimp only at h
    have hle := length_readCount?_le hcount
    split at h
    · cases h
      simp only [List.length_cons] at hle ⊢
      omega
    · cases h
  · cases h

theorem readBounds?_closing (b : UInt8) (t : Bytes) :
    readBounds? (b :: t ++ [closing]) =
      (readBounds? (b :: t)).map fun (bounds, left) => (bounds, left ++ [closing]) := by
  rw [List.cons_append, readBounds?_eq, readBounds?_eq, readCount?_closing]
  cases readCount? t with
  | none => rfl
  | some r => exact boundsBehind_closing r.1 r.2

theorem length_readBounds? {b : UInt8} {t left : Bytes} {bounds : Option (Nat × Option Nat)}
    (h : readBounds? (b :: t) = some (bounds, left)) : left.length < (b :: t).length := by
  rw [readBounds?_eq] at h
  obtain ⟨⟨least, rest⟩, hcount, h⟩ := Option.bind_eq_some_iff.mp h
  have hle := length_readCount?_le hcount
  have hless := length_boundsBehind h
  rw [List.length_cons]
  omega

theorem repeatLast_follows (st : State) (q : Quantifier) {t after : Bytes}
    (hless : after.length < t.length) :
    Follows t (repeatLast st q t after)
      (repeatLast st.inside q (t ++ [closing]) (after ++ [closing])) := by
  have hhead := head?_closing (show Bytes.ascii '?' ≠ closing by decide) after
  have hafter : (if after.head? = some (Bytes.ascii '?') then (after ++ [closing]).drop 1
      else after ++ [closing]) =
        (if after.head? = some (Bytes.ascii '?') then after.drop 1 else after) ++ [closing] := by
    split
    · cases after with
      | nil => contradiction
      | cons b after => rfl
    · rfl
  unfold repeatLast
  dsimp only
  simp only [hhead]
  rw [hafter]
  have hless' : (if after.head? = some (Bytes.ascii '?') then after.drop 1 else after).length <
      t.length := by
    split
    · rw [List.length_drop]
      omega
    · exact hless
  generalize (if after.head? = some (Bytes.ascii '?') then after.drop 1 else after) = left
    at hless' ⊢
  cases hlast : st.lastRepeat with
  | some last =>
    have hlast' : st.inside.lastRepeat = some (last ++ [closing]) := by
      rw [State.inside, hlast]
      rfl
    rw [hlast']
    exact .fail _
  | none =>
    have hlast' : st.inside.lastRepeat = none := by
      rw [State.inside, hlast]
      rfl
    rw [hlast']
    have htop : st.inside.top = st.top := rfl
    have hflags : st.inside.flags = st.flags := rfl
    rw [htop, hflags]
    cases st.top.items with
    | nil => exact .fail _
    | cons item items =>
      dsimp only
      generalize Tree.repeated q _ item = repeated
      refine .bind Budget.steady_make fun _ => .bind (Budget.steady_check repeated) fun _ => ?_
      let top : Group := { st.top with items := repeated :: items }
      have hdone : Follows t (pure ({ st with top, lastRepeat := some t }, left))
          (pure (State.inside { st with top, lastRepeat := some t }, left ++ [closing])) :=
        .done hless'
      exact .ite (.fail_bind _) hdone

theorem openNamed_follows (st : State) (s s' : Bytes) {t u : Bytes} (hless : t.length < u.length) :
    Follows u (openNamed st s t) (openNamed st.inside s' (t ++ [closing])) := by
  unfold openNamed
  rw [Bytes.cut?_concat (by decide) (by decide)]
  cases hcut : Bytes.cut? ">" t with
  | none =>
    dsimp only [Option.map_none]
    exact .aside
  | some r =>
    obtain ⟨name, rest⟩ := r
    dsimp only [Option.map_some]
    have hle := Bytes.length_cut?_le hcut
    refine .bind (.lift _) fun _ => .ite ?_ (.fail _)
    rw [State.inside_openGroup]
    exact .same (st.steady_openGroup true st.flags) (by omega)

theorem readFlags_follows (st : State) (s s' : Bytes) (fuel' : Nat) {fuel : Nat} {flags : Flags}
    {on seen : Bool} {t u : Bytes} (hfuel : t.length < fuel) (hless : t.length < u.length) :
    Follows u (readFlags st s fuel flags on seen t)
      (readFlags st.inside s' fuel' flags on seen (t ++ [closing])) := by
  induction fuel' generalizing fuel flags on seen t with
  | zero => exact .fail _
  | succ fuel' ih =>
    obtain ⟨fuel, rfl⟩ : ∃ k, fuel = k + 1 := ⟨fuel - 1, by omega⟩
    cases t with
    | nil =>
      -- The parenthesis ends the list of options.
      show Follows u _ (if (!on && !seen) = true then throw _
        else pure (State.inside { st with flags }, []))
      split
      · exact .fail _
      · exact .ended
    | cons x t =>
      simp only [List.cons_append, readFlags]
      rw [← List.cons_append]
      refine .readChar (List.cons_ne_nil x t) fun c rest hrest => ?_
      dsimp only
      have hfuel' : rest.length < fuel := by omega
      have hless' : rest.length < u.length := by omega
      split
      · exact ih hfuel' hless'
      · exact ih hfuel' hless'
      · exact ih hfuel' hless'
      · exact ih hfuel' hless'
      · exact .ite (ih hfuel' hless') (.fail _)
      · refine .ite (.fail _) ?_
        rw [State.inside_openGroup]
        exact .same (st.steady_openGroup false flags) hless'
      · have hdone : Follows u (pure ({ st with flags }, rest))
            (pure (State.inside { st with flags }, rest ++ [closing])) := .done hless'
        exact .ite (.fail _) hdone
      · exact .fail _

theorem inside_pushLiteral (skip : Nat) (st : State) (t : Bytes) :
    pushLiteral skip st.inside t = State.inside <$> pushLiteral skip st t := by
  induction t generalizing skip st with
  | nil => cases skip <;> rfl
  | cons b t ih =>
    cases skip with
    | succ skip => exact ih skip st
    | zero =>
      simp only [pushLiteral, map_bind, State.inside_pushCode, bind_map_left, ih]

theorem steady_pushLiteral (skip : Nat) (st : State) (t : Bytes) :
    Steady (pushLiteral skip st t) := by
  induction t generalizing skip st with
  | nil => cases skip <;> exact .pure st
  | cons b t ih =>
    cases skip with
    | succ skip => exact ih skip st
    | zero => exact .bind (.lift _) fun r => .bind (st.steady_pushCode _) fun st => ih _ st

/-- No name ends before the pattern does. -/
theorem openNamed_nil {u : Bytes} {m : Building (State × Bytes)} (st : State) (s : Bytes) :
    Follows u m (openNamed st s [closing]) := by
  have hcut : Bytes.cut? ">" [closing] = none := by decide
  unfold openNamed
  rw [hcut]
  exact .aside

theorem openSpecial_flags {st : State} {a b : UInt8} {t : Bytes}
    (hnamed : ∀ x v, t ≠ 80 :: 60 :: x :: v) (hangled : ∀ x v, t ≠ 60 :: x :: v) :
    openSpecial st (a :: b :: t) =
      readFlags st (a :: b :: t) (a :: b :: t).length st.flags true false t := by
  have hdrop : (a :: b :: t).drop 2 = t := rfl
  unfold openSpecial
  rw [hdrop]
  split
  · exact absurd rfl (hnamed _ _)
  · exact absurd rfl (hangled _ _)
  · rfl

theorem openSpecial_follows (st : State) (a b : UInt8) (t : Bytes) :
    Follows (a :: b :: t) (openSpecial st (a :: b :: t))
      (openSpecial st.inside (a :: b :: t ++ [closing])) := by
  by_cases hnamed : ∃ v, t = 80 :: 60 :: v
  · obtain ⟨v, rfl⟩ := hnamed
    cases v with
    | nil => exact openNamed_nil st.inside _
    | cons x v =>
      apply openNamed_follows st (t := x :: v)
      simp only [List.length_cons]
      omega
  by_cases hangled : ∃ v, t = 60 :: v
  · obtain ⟨v, rfl⟩ := hangled
    cases v with
    | nil => exact openNamed_nil st.inside _
    | cons x v =>
      apply openNamed_follows st (t := x :: v)
      simp only [List.length_cons]
      omega
  have hnamed' : ∀ x v, t ++ [closing] ≠ 80 :: 60 :: x :: v := by
    intro x v h
    exact hnamed (exists_of_append_closing (by decide) h)
  have hangled' : ∀ x v, t ++ [closing] ≠ 60 :: x :: v := by
    intro x v h
    cases t with
    | nil => cases h
    | cons y t =>
      rw [List.cons_append, List.cons.injEq] at h
      exact hangled ⟨t, by rw [h.1]⟩
  rw [List.cons_append, List.cons_append, openSpecial_flags hnamed' hangled',
    openSpecial_flags (fun x v h => hnamed ⟨x :: v, h⟩) fun x v h => hangled ⟨x :: v, h⟩]
  apply readFlags_follows st
  · simp only [List.length_cons]
    omega
  · simp only [List.length_cons]
    omega

/-- The rest of what a backslash can introduce: a class or one character. -/
def readClassEscape (st : State) (t : Bytes) : Building (State × Bytes) := do
  let class? : Reading (Option (CharClass × Bytes)) := do
    if let some found ← readProperty? st.flags.ignoreCase t then return some found
    return readShortClass? st.flags.ignoreCase t
  match ← class? with
  | some (c, left) => return (← st.pushClass c, left)
  | none =>
    let (n, left) ← readEscape t
    return (← st.pushCode n, left)

theorem readBackslash_eq (st : State) (t : Bytes) : readBackslash st t =
    match (t.drop 1).head? with
    | some 65 => do return (← st.push (.check .beginText), t.drop 2)
    | some 98 => do return (← st.push (.check .wordBoundary), t.drop 2)
    | some 66 => do return (← st.push (.check .noWordBoundary), t.drop 2)
    | some 67 => throw ⟨.invalidEscape, t.take 2⟩
    | some 81 => do
      let (literal, left) := (Bytes.cut? "\\E" (t.drop 2)).getD (t.drop 2, [])
      return (← pushLiteral 0 st literal, left)
    | some 122 => do return (← st.push (.check .endText), t.drop 2)
    | _ => readClassEscape st t := rfl

theorem readClassEscape_follows (st : State) (b : UInt8) (t : Bytes) :
    Follows (b :: t) (readClassEscape st (b :: t))
      (readClassEscape st.inside (b :: t ++ [closing])) := by
  refine .readIfAny ?_ st.steady_pushClass (fun _ _ => rfl) (fun c left => ?_) ?_
  · refine (readProperty?_closing st.flags.ignoreCase (b :: t)).orElseIfAny (fun _ => ⟨rfl, rfl⟩) ?_
    exact readShortClass?_survives st.flags.ignoreCase (b :: t)
  · show (do return (← st.inside.pushClass c, left)) = _
    rw [State.inside_pushClass]
  · exact .read (readEscape_closing b t) st.steady_pushCode st.inside_pushCode

theorem readBackslash_follows (st : State) (b : UInt8) (t : Bytes) :
    Follows (b :: t) (readBackslash st (b :: t))
      (readBackslash st.inside (b :: t ++ [closing])) := by
  rw [readBackslash_eq, readBackslash_eq]
  cases t with
  | nil => exact readClassEscape_follows st b []
  | cons a t =>
    have hless : t.length < (b :: a :: t).length := by
      simp only [List.length_cons]
      omega
    simp only [List.cons_append, List.drop_succ_cons, List.drop_zero, List.head?_cons]
    split
    · rw [State.inside_push]
      exact .same (st.steady_push _) hless
    · rw [State.inside_push]
      exact .same (st.steady_push _) hless
    · rw [State.inside_push]
      exact .same (st.steady_push _) hless
    · exact .fail _
    · -- Without an end, literal text takes the parenthesis in.
      rw [Bytes.cut?_concat (by decide) (by decide)]
      cases hcut : Bytes.cut? "\\E" t with
      | none =>
        dsimp only [Option.map_none, Option.getD_none]
        rw [inside_pushLiteral]
        exact .swallow
      | some r =>
        obtain ⟨literal, left⟩ := r
        dsimp only [Option.map_some, Option.getD_some]
        rw [inside_pushLiteral]
        have hle := Bytes.length_cut?_le hcut
        exact .same (steady_pushLiteral 0 st literal) (by omega)
    · rw [State.inside_push]
      exact .same (st.steady_push _) hless
    · exact readClassEscape_follows st b (a :: t)

/-- A parenthesis closes a group, or the pattern has none to close. -/
theorem closeGroup_follows (st : State) (b : UInt8) (t : Bytes) :
    Follows (b :: t) (do return (← st.closeGroup, t))
      (do return (← st.inside.closeGroup, t ++ [closing])) := by
  cases haround : st.around with
  | nil =>
    intro b b' hb st' left' c' h
    obtain ⟨st₁, c₁, hclose, -⟩ := run_bind.mp h
    obtain ⟨tree, d', htop, -⟩ := run_bind.mp hclose
    obtain ⟨d, htop, -⟩ := st.top.steady_close b b' hb tree d' htop
    refine .inr (.inr ⟨d.pattern, ?_⟩)
    rw [StateT.run_bind, State.closeGroup, StateT.run_bind, htop]
    dsimp only [ok_bind]
    rw [haround]
    rfl
  | cons outer around =>
    have hsteady : Steady st.closeGroup := by
      refine .bind st.top.steady_close fun tree => ?_
      rw [haround]
      exact .bind (outer.steady_push _) fun _ => .pure _
    have hinside : st.inside.closeGroup = State.inside <$> st.closeGroup := by
      have haround' : st.inside.around = outer :: (around ++ [outermost]) := by
        rw [State.inside, haround]
        rfl
      simp only [State.closeGroup, haround, haround', map_bind]
      rfl
    rw [hinside]
    exact .same hsteady (Nat.lt_succ_self _)

theorem readItem_follows (st : State) (b : UInt8) (t : Bytes) :
    Follows (b :: t) (readItem st (b :: t)) (readItem st.inside (b :: t ++ [closing])) := by
  have hless : t.length < (b :: t).length := Nat.lt_succ_self _
  have hpush : ∀ tree, Follows (b :: t) (do return (← st.push tree, t))
      (do return (← st.inside.push tree, t ++ [closing])) := by
    intro tree
    rw [State.inside_push]
    exact .same (st.steady_push tree) hless
  unfold readItem
  simp only [List.cons_append, List.drop_succ_cons, List.drop_zero, List.head?_cons]
  split
  · have hhead := head?_closing (show Bytes.ascii '?' ≠ closing by decide) t
    simp only [hhead]
    split
    · rename_i hspecial
      cases t with
      | nil => cases hspecial
      | cons c t => exact openSpecial_follows st b c t
    · rw [State.inside_openGroup]
      exact .same (st.steady_openGroup true st.flags) hless
  · rw [State.inside_nextBranch]
    exact .same st.steady_nextBranch hless
  · exact closeGroup_follows st b t
  · exact hpush _
  · exact hpush _
  · exact hpush _
  · exact .read (readClass_closing st.flags.ignoreCase b t) st.steady_pushClass
      st.inside_pushClass
  · exact readBackslash_follows st b t
  · rw [← List.cons_append]
    refine .readChar (List.cons_ne_nil b t) fun c left hleft => ?_
    dsimp only
    rw [State.inside_pushCode]
    exact .same (st.steady_pushCode _) hleft

theorem readStep_follows (st : State) (b : UInt8) (t : Bytes) :
    Follows (b :: t) (readStep st (b :: t)) (readStep st.inside (b :: t ++ [closing])) := by
  have hless : t.length < (b :: t).length := Nat.lt_succ_self _
  unfold readStep
  simp only [List.cons_append, List.drop_succ_cons, List.drop_zero, List.head?_cons]
  split
  · exact repeatLast_follows st .star hless
  · exact repeatLast_follows st .plus hless
  · exact repeatLast_follows st .opt hless
  · rw [← List.cons_append, readBounds?_closing]
    cases hbounds : readBounds? (b :: t) with
    | none =>
      dsimp only [Option.map_none]
      have hcode : st.inside.pushCode 123 = State.inside <$> st.pushCode 123 :=
        st.inside_pushCode 123
      rw [hcode]
      have h := (Follows.same (st.steady_pushCode 123) hless).forget
      simpa only [bind_assoc, pure_bind] using h
    | some r =>
      obtain ⟨bounds, after⟩ := r
      dsimp only [Option.map_some]
      have hafter := length_readBounds? hbounds
      cases bounds with
      | none => exact .fail _
      | some r =>
        obtain ⟨least, most⟩ := r
        exact .ite (.fail _) (repeatLast_follows st (.count least most) hafter)
  · exact (readItem_follows { st with lastRepeat := none } b t).forget

end Backtrack.Regex
