import Backtrack.Proofs.Regex.Running

/-!
# Every match is found

The matcher lists the end of every match: what `Regex.Matches` describes it finds, also inside
repetitions whose body may match nothing. There it makes no choice twice at one place, and a match
that does so can be cut short to one that does not.

This module does NOT say which match is preferred.
-/

namespace Backtrack.Regex

open Route

/-- The arrivals that are listed are all that a relation leads to, as far as choices that are made
twice do not stand in the way. -/
def Routed (size lo hi : Nat) (M : Nat → Nat → Prop) (A : Arrival → List Arrival) : Prop :=
  ∃ T, Lawful size lo hi T ∧ Explores size T A ∧ ∀ {p q}, p ≤ size → M p q → ∃ l, T p l q

theorem Routed.mono {size lo hi lo' hi' : Nat} {M : Nat → Nat → Prop} {A : Arrival → List Arrival}
    (h : Routed size lo hi M A) (hlo : lo' ≤ lo) (hhi : hi ≤ hi') : Routed size lo' hi' M A := by
  obtain ⟨T, hT, hA, hM⟩ := h
  exact ⟨T, hT.mono hlo hhi, hA, hM⟩

/-- Without any choices before nothing stands in the way. -/
theorem Routed.mem {size lo hi p q : Nat} {M : Nat → Nat → Prop} {A : Arrival → List Arrival}
    (h : Routed size lo hi M A) (hp : p ≤ size) (hM : M p q) :
    q ∈ (A ⟨p, []⟩).map Arrival.place := by
  obtain ⟨T, -, hA, hroutes⟩ := h
  obtain ⟨l, ht⟩ := hroutes hp hM
  obtain ⟨b, hb, hplace⟩ := hA.complete (a := ⟨p, []⟩) hp ht (by simp [Arrival.Allows])
  exact List.mem_map.mpr ⟨b, hb, hplace⟩

variable {text : Array UInt8} {start : Nat} {r s : Regex}

variable (text start) in
/-- All matches of an expression are found, also inside a repetition. -/
structure Thorough (r : Regex) : Prop where
  ends : ∀ {p q}, p ≤ text.size → r.Matches text start p q → q ∈ r.ends text start p
  arrivals : ∀ base, Routed text.size base (base + r.choices) (r.Matches text start)
    (r.arrivals text start base)

theorem thorough_empty : Thorough text start .empty := by
  constructor
  · rintro p q - rfl
    exact List.mem_cons_self
  · exact fun base => ⟨skip, .skip, .skip, fun _ h => ⟨[], rfl, h⟩⟩

theorem thorough_chars (c : CharClass) : Thorough text start (.chars c) := by
  constructor
  · rintro p q - ⟨ch, width, hat, hc, rfl⟩
    simp [Regex.ends, hat, hc]
  · intro base
    refine ⟨plain (Matches text start (.chars c)), .plain fun p q h hp => h.bounds hp, ⟨?_, ?_⟩,
      fun _ h => ⟨[], rfl, h⟩⟩
    · intro a ha b hb
      have hmatch := (listsMatches_chars c).arrivals base a b hb
      have hempty : b.choices = [] := by
        simp only [Regex.arrivals] at hb
        split at hb
        · obtain ⟨-, rfl⟩ := mem_singleton_if hb
          rfl
        · cases hb
      refine ⟨[], ⟨⟨rfl, hmatch⟩, ?_, ?_, ?_⟩⟩
      · intro k hk
        simp
      · intro k hk
        rw [hempty] at hk
        cases hk
      · intro hplace
        have hlt := hmatch.lt rfl ha
        omega
    · rintro a l q ha ⟨-, ch, width, hat, hc, rfl⟩ -
      simp [Regex.arrivals, hat, hc]

theorem thorough_check (c : Assertion) : Thorough text start (.check c) := by
  constructor
  · rintro p q - ⟨hc, rfl⟩
    simp [Regex.ends, hc]
  · intro base
    refine ⟨plain (Matches text start (.check c)), .plain fun p q h hp => h.bounds hp, ⟨?_, ?_⟩,
      fun _ h => ⟨[], rfl, h⟩⟩
    · intro a ha b hb
      have hmatch := (listsMatches_check c).arrivals base a b hb
      obtain ⟨-, rfl⟩ := mem_singleton_if hb
      refine ⟨[], ⟨⟨rfl, hmatch⟩, ?_, fun k hk => .inr ⟨rfl, hk⟩, fun _ => List.Subset.refl _⟩⟩
      intro k hk
      simp
    · rintro a l q ha ⟨-, hc, rfl⟩ -
      simp [Regex.arrivals, hc]

section Parts

variable (hr : Thorough text start r)
include hr

theorem Thorough.seq (hs : Thorough text start s) : Thorough text start (.seq r s) := by
  constructor
  · rintro p q hp ⟨m, hm, hq⟩
    exact mem_firsts_id (List.mem_flatMap.mpr ⟨m, hr.ends hp hm, hs.ends (hm.bounds hp).2 hq⟩)
  · intro base
    obtain ⟨T, hT, hA, hMT⟩ := hr.arrivals base
    obtain ⟨S, hS, hB, hMS⟩ := hs.arrivals (base + r.choices)
    have hlawful := hT.chained hS (by omega) (by omega)
    rw [Nat.add_assoc] at hlawful
    refine ⟨chained T S, hlawful, hA.chained hT hS hB, ?_⟩
    rintro p q hp ⟨m, hm, hq⟩
    obtain ⟨l, ht⟩ := hMT hp hm
    obtain ⟨l', hs⟩ := hMS (hm.bounds hp).2 hq
    exact ⟨l ++ l', m, l, l', rfl, ht, hs⟩

theorem Thorough.alt (hs : Thorough text start s) : Thorough text start (.alt r s) := by
  constructor
  · rintro p q hp (h | h)
    · exact mem_firsts_id (List.mem_append_left _ (hr.ends hp h))
    · exact mem_firsts_id (List.mem_append_right _ (hs.ends hp h))
  · intro base
    obtain ⟨T, hT, hA, hMT⟩ := hr.arrivals (base + 1)
    obtain ⟨S, hS, hB, hMS⟩ := hs.arrivals (base + 1 + r.choices)
    have hboth := hT.either hS (by omega) (by omega)
    have hlawful := hboth.choice (by omega : base < _)
    refine ⟨choice base (either T S), hlawful.mono (Nat.le_refl _) ?_,
      .choose hboth.fresh (hA.either hB), ?_⟩
    · simp only [choices]
      omega
    · rintro p q hp (h | h)
      · obtain ⟨l, ht⟩ := hMT hp h
        exact ⟨(p, base) :: l, l, rfl, .inl ht⟩
      · obtain ⟨l, ht⟩ := hMS hp h
        exact ⟨(p, base) :: l, l, rfl, .inr ht⟩

theorem Thorough.opt (greedy : Bool) : Thorough text start (.opt greedy r) := by
  constructor
  · rintro p q hp (rfl | h)
    · exact mem_firsts_id (mem_stops.mpr (.inl rfl))
    · exact mem_firsts_id (mem_stops.mpr (.inr (hr.ends hp h)))
  · intro base
    obtain ⟨T, hT, hA, hMT⟩ := hr.arrivals (base + 1)
    have hboth := Lawful.skip.either hT (Nat.le_refl _) (by omega)
    have hlawful := hboth.choice (by omega : base < _)
    refine ⟨choice base (either skip T), hlawful.mono (Nat.le_refl _) ?_,
      .choose hboth.fresh (hA.withStop greedy), ?_⟩
    · simp only [choices]
      omega
    · rintro p q hp (rfl | h)
      · exact ⟨[(p, base)], [], rfl, .inl ⟨rfl, rfl⟩⟩
      · obtain ⟨l, ht⟩ := hMT hp h
        exact ⟨(p, base) :: l, l, rfl, .inr ht⟩

theorem Thorough.enumerates : Enumerates text.size (r.Matches text start) (r.ends text start) := by
  refine ⟨fun h hp => h.bounds hp, fun p q hq => matches_of_mem_ends hq, hr.ends, ?_⟩
  intro p hp
  exact ((shifts #[] text start r).ends p hp).few

omit hr in
theorem length_arrivals_le (base : Nat) (a : Arrival) (ha : a.place ≤ text.size) :
    (r.arrivals text start base a).length ≤ text.size + 1 :=
  ((shifts #[] text start r).arrivals base a ha).few

omit hr in
theorem forward_of_not_nullable (hnullable : ¬ r.isNullable = true) {p q : Nat}
    (h : r.Matches text start p q) (hp : p ≤ text.size) : p < q ∧ q ≤ text.size :=
  ⟨h.lt (Bool.eq_false_iff.mpr hnullable) hp, (h.bounds hp).2⟩

/-- One match or more. -/
theorem Thorough.routed_plus (greedy : Bool) (base number : Nat) (hnumber : number < base) :
    Routed text.size number (base + r.choices)
      (fun p q => ∃ n, 0 < n ∧ Steps (r.Matches text start) n p q)
      (fun a => if r.isNullable then
          loopPlus greedy number (walkFuel text) (r.arrivals text start base) a
        else runPlus greedy number (walkFuel text) (r.ends text start) a) := by
  have hfuel := walkFuel_suffices (Nat.le_refl text.size)
  have hrange : number < base + r.choices := by omega
  split
  · obtain ⟨T, hT, hA, hMT⟩ := hr.arrivals base
    have hT' := hT.mono hnumber (Nat.le_refl _)
    refine ⟨loop number T, hT'.loop hrange, .loopPlus hT' hrange hA (length_arrivals_le base) hfuel,
      ?_⟩
    rintro p q hp ⟨n, hn, hsteps⟩
    obtain ⟨l, hlaps, hne⟩ := exists_laps (fun h hp => h.bounds hp) hMT hsteps hp
    exact ⟨l, hlaps, hne hn⟩
  · rename_i hnullable
    have hplain : Lawful text.size (number + 1) (base + r.choices) (plain (r.Matches text start)) :=
      .plain fun p q h hp => h.bounds hp
    refine ⟨loop number (plain (r.Matches text start)), hplain.loop hrange,
      .runPlus hr.enumerates (forward_of_not_nullable hnullable) hfuel, ?_⟩
    rintro p q hp ⟨n, hn, hsteps⟩
    obtain ⟨l, hlaps, hne⟩ := exists_laps (T := plain (r.Matches text start))
      (fun h hp => h.bounds hp) (fun _ h => ⟨[], rfl, h⟩) hsteps hp
    exact ⟨l, hlaps, hne hn⟩

/-- Any number of matches. -/
theorem Thorough.routed_star (greedy : Bool) (base : Nat) :
    Routed text.size base (base + (r.choices + 2))
      (fun p q => ∃ n, Steps (r.Matches text start) n p q)
      (fun a => if r.isNullable then
          loopStar greedy base (walkFuel text) (r.arrivals text start (base + 2)) a
        else runStar greedy base (walkFuel text) (r.ends text start) a) := by
  have hfuel := walkFuel_suffices (Nat.le_refl text.size)
  split
  · obtain ⟨T, hT, hA, hMT⟩ := hr.arrivals (base + 2)
    have hrange : base + 1 < base + 2 + r.choices := by omega
    have hloop := Lawful.skip.either (hT.loop hrange) (Nat.le_refl (base + 1)) (by omega)
    refine ⟨choice base (either skip (loop (base + 1) T)),
      (hloop.choice (by omega)).mono (Nat.le_refl _) (by omega),
      .loopStar hT hrange hA (length_arrivals_le (base + 2)) hfuel, ?_⟩
    rintro p q hp ⟨n, hsteps⟩
    obtain ⟨l, hlaps, hne⟩ := exists_laps (n := base + 1) (fun h hp => h.bounds hp) hMT hsteps hp
    rcases Nat.eq_zero_or_pos n with rfl | hn
    · cases hsteps
      exact ⟨[(p, base)], [], rfl, .inl ⟨rfl, rfl⟩⟩
    · exact ⟨(p, base) :: l, l, rfl, .inr ⟨hlaps, hne hn⟩⟩
  · rename_i hnullable
    have hplain : Lawful text.size (base + 1) (base + (r.choices + 2))
        (plain (r.Matches text start)) := .plain fun p q h hp => h.bounds hp
    refine ⟨run base (plain (r.Matches text start)), hplain.run (by omega),
      .runStar hr.enumerates (forward_of_not_nullable hnullable) hfuel, ?_⟩
    rintro p q hp ⟨n, hsteps⟩
    obtain ⟨l, hlaps, -⟩ := exists_laps (n := base) (T := plain (r.Matches text start))
      (fun h hp => h.bounds hp) (fun _ h => ⟨[], rfl, h⟩) hsteps hp
    exact ⟨(p, base) :: l, l, rfl, hlaps⟩

theorem Thorough.mem_ends_plus (greedy : Bool) {p q n : Nat} (hp : p ≤ text.size) (hn : 0 < n)
    (h : Steps (r.Matches text start) n p q) :
    q ∈ if r.isNullable then
        (loopPlus greedy 0 (walkFuel text) (r.arrivals text start 1) ⟨p, []⟩).map Arrival.place
      else walkFrom id greedy (r.ends text start) (walkFuel text) (r.ends text start p) := by
  have hfound := (hr.routed_plus greedy 1 0 Nat.one_pos).mem hp ⟨n, hn, h⟩
  split
  · rename_i hnullable
    rwa [if_pos hnullable] at hfound
  · exact hr.enumerates.mem_walkFrom_step (walkFuel_suffices (Nat.le_refl _)) hp h hn

theorem Thorough.mem_ends_star (greedy : Bool) {p q n : Nat} (hp : p ≤ text.size)
    (h : Steps (r.Matches text start) n p q) :
    q ∈ if r.isNullable then
        (loopStar greedy 0 (walkFuel text) (r.arrivals text start 2) ⟨p, []⟩).map Arrival.place
      else walkFrom id greedy (r.ends text start) (walkFuel text) [p] := by
  have hfound := (hr.routed_star greedy 0).mem hp ⟨n, h⟩
  split
  · rename_i hnullable
    rwa [if_pos hnullable] at hfound
  · exact hr.enumerates.mem_walkFrom (walkFuel_suffices (Nat.le_refl _)) hp h

theorem Thorough.star (greedy : Bool) : Thorough text start (.star greedy r) := by
  constructor
  · rintro p q hp ⟨n, h⟩
    exact hr.mem_ends_star greedy hp h
  · exact fun base => hr.routed_star greedy base

theorem Thorough.plus (greedy : Bool) : Thorough text start (.plus greedy r) := by
  constructor
  · rintro p q hp ⟨n, hn, h⟩
    exact hr.mem_ends_plus greedy hp hn h
  · intro base
    exact (hr.routed_plus greedy (base + 1) base (Nat.lt_succ_self _)).mono (Nat.le_refl _)
      (by simp only [choices]; omega)

def copyNumber (base : Nat) (r : Regex) (i : Nat) : Nat := base + i * (r.choices + 2)

omit hr in
theorem copyNumber_succ (base i : Nat) :
    copyNumber base r (i + 1) = copyNumber base r i + 2 + r.choices := by
  unfold copyNumber
  rw [Nat.succ_mul]
  omega

theorem Thorough.routed_copies (base : Nat) : ∃ Ts : Nat → Route,
    (∀ i, Lawful text.size (copyNumber base r i + 1) (copyNumber base r (i + 1)) (Ts i)) ∧
      (∀ i, Explores text.size (Ts i) (r.arrivals text start (copyNumber base r i + 2))) ∧
      ∀ i {p q}, p ≤ text.size → r.Matches text start p q → ∃ l, Ts i p l q := by
  choose Ts hTs hAs hMs using fun i => hr.arrivals (copyNumber base r i + 2)
  refine ⟨Ts, fun i => ?_, hAs, hMs⟩
  rw [copyNumber_succ]
  exact (hTs i).mono (Nat.le_succ _) (Nat.le_refl _)

theorem Thorough.between (greedy : Bool) (least most : Nat) :
    Thorough text start (.count greedy least (some most) r) := by
  constructor
  · rintro p q hp ⟨n, hleast, hmost, h⟩
    exact hr.enumerates.mem_endsBetween rfl hp hleast (hmost most rfl) h
  · intro base
    obtain ⟨Ts, hTs, hAs, hMs⟩ := hr.routed_copies base
    have hnumber : ∀ i, copyNumber base r i < copyNumber base r (i + 1) := by
      intro i
      rw [copyNumber_succ]
      omega
    have hlawful := Lawful.counted hnumber hTs least most
    refine ⟨Route.counted (copyNumber base r) least most Ts, hlawful.mono ?_ ?_,
      .counted hnumber hTs hAs (fun i => length_arrivals_le _) greedy least most, ?_⟩
    · simp [copyNumber]
    · have hlast := copyNumber_succ (r := r) base (least + (most - least))
      have hmax : least + (most - least) = max least most := by omega
      rw [hmax] at hlast ⊢
      simp only [copyNumber, choices, Option.getD_some] at hlast ⊢
      omega
    · rintro p q hp ⟨n, hleast, hmost, h⟩
      exact exists_counted (fun h hp => h.bounds hp) hMs hleast (hmost most rfl) h hp

theorem Thorough.atLeast (greedy : Bool) (least : Nat) :
    Thorough text start (.count greedy least none r) := by
  cases least with
  | zero =>
    constructor
    · rintro p q hp ⟨n, -, -, h⟩
      exact hr.mem_ends_star greedy hp h
    · intro base
      obtain ⟨T, hT, hA, hMT⟩ := hr.routed_star greedy base
      refine ⟨T, hT.mono (Nat.le_refl _) (by simp [choices]), hA, ?_⟩
      rintro p q hp ⟨n, -, -, h⟩
      exact hMT hp ⟨n, h⟩
  | succ least =>
    constructor
    · rintro p q hp ⟨n, hleast, -, h⟩
      obtain ⟨k, rfl⟩ : ∃ k, n = least + k := ⟨n - least, by omega⟩
      obtain ⟨m, hfirst, hrest⟩ := h.split
      have hm := (hfirst.bounds (fun _ _ h => h.bounds) hp).2
      exact mem_firsts_id (List.mem_flatMap.mpr ⟨m, hr.enumerates.mem_exactly hp hfirst,
        hr.mem_ends_plus greedy hm (by omega) hrest⟩)
    · intro base
      obtain ⟨Ts, hTs, hAs, hMs⟩ := hr.routed_copies base
      obtain ⟨T, hT, hA, hMT⟩ := hr.routed_plus greedy (copyNumber base r least + 2)
        (copyNumber base r least) (by omega)
      rw [← copyNumber_succ] at hT
      simp only [← ite_apply] at hA
      have hnumber : ∀ i, copyNumber base r i ≤ copyNumber base r (i + 1) := by
        intro i
        rw [copyNumber_succ]
        omega
      have hfirst := Lawful.number_le hnumber 0 least
      rw [Nat.zero_add] at hfirst
      have hcopies := Lawful.copies hnumber (Lawful.whole hTs) least
      have hlawful := hcopies.chained hT hfirst (hnumber least)
      refine ⟨chained (copies Ts least) T, hlawful.mono ?_ ?_,
        (Explores.copies hnumber (Lawful.whole hTs) hAs least).chained hcopies hT hA, ?_⟩
      · simp [copyNumber]
      · simp only [copyNumber, choices, Option.getD_none, Nat.max_zero]
        have hle : (least + 1) * (r.choices + 2) ≤ (least + 1 + 1) * (r.choices + 2) :=
          Nat.mul_le_mul_right _ (Nat.le_succ _)
        omega
      · rintro p q hp ⟨n, hleast, -, h⟩
        obtain ⟨k, rfl⟩ : ∃ k, n = least + k := ⟨n - least, by omega⟩
        obtain ⟨m, hfirst, hrest⟩ := h.split
        have hm := (hfirst.bounds (fun _ _ h => h.bounds) hp).2
        obtain ⟨l, hl⟩ := exists_copies (fun h hp => h.bounds hp) hMs hfirst hp
        obtain ⟨l', hl'⟩ := hMT hm ⟨k, by omega, hrest⟩
        exact ⟨l ++ l', m, l, l', rfl, hl, hl'⟩

end Parts

theorem thorough (r : Regex) : Thorough text start r := by
  induction r with
  | empty => exact thorough_empty
  | chars c => exact thorough_chars c
  | check a => exact thorough_check a
  | seq r s ihr ihs => exact ihr.seq ihs
  | alt r s ihr ihs => exact ihr.alt ihs
  | opt greedy r ih => exact ih.opt greedy
  | star greedy r ih => exact ih.star greedy
  | plus greedy r ih => exact ih.plus greedy
  | count greedy least most r ih =>
    cases most with
    | some most => exact ih.between greedy least most
    | none => exact ih.atLeast greedy least

/-- The matcher lists all places where a match ends, and no others. -/
theorem mem_ends_iff {p q : Nat} (hp : p ≤ text.size) :
    q ∈ r.ends text start p ↔ r.Matches text start p q :=
  ⟨matches_of_mem_ends, (thorough r).ends hp⟩

end Backtrack.Regex
