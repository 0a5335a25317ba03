import Backtrack.Proofs.Regex.Exploring

/-!
# Counted repetitions

Copies of a body one after another, and a number of copies that may be left out, each with a choice
in front. A walk through those keeps the number of copies done apart, so it comes to every place
with every number of copies that leads there.
-/

namespace Backtrack.Regex

open Route

variable {size : Nat}

section Counted

theorem exactly_succ {α : Type} {key : α → Nat} {step : Nat → α → List α} (n i : Nat)
    (as : List α) :
    exactly key step (n + 1) i as = continueFrom key (exactly key step n i as) (step (i + n)) := by
  induction n generalizing i as with
  | zero => rfl
  | succ n ih =>
    rw [exactly, ih (i + 1), exactly, Nat.add_right_comm, Nat.add_assoc]

variable {number : Nat → Nat} {Ts : Nat → Route} {As : Nat → Arrival → List Arrival}

section Chains

variable (hnumber : ∀ i, number i ≤ number (i + 1))
variable (hTs : ∀ i, Lawful size (number i) (number (i + 1)) (Ts i))
variable (hAs : ∀ i, Explores size (Ts i) (As i))
include hnumber hTs hAs

theorem Explores.copies (n : Nat) :
    Explores size (copies Ts n) (fun a => exactly Arrival.place As n 0 [a]) := by
  induction n with
  | zero => exact skip
  | succ n ih =>
    have h := chained (Lawful.copies hnumber hTs n) (hTs n) ih (hAs n)
    simp only [exactly_succ, Nat.zero_add]
    exact h

def Route.remaining (Ts : Nat → Route) (n i d : Nat) : Route := options Ts (n - d) (i + d)

omit hnumber hTs hAs in
theorem remaining_of_chained {n i d p m q : Nat} {l l' : List (Nat × Nat)} (hd : d < n)
    (ht : Ts (i + d) p l m) (h : remaining Ts n i (d + 1) m l' q) :
    remaining Ts n i d p (l ++ l') q := by
  unfold remaining at h ⊢
  rw [show n - d = n - (d + 1) + 1 by omega]
  exact .inr ⟨m, l, l', rfl, ht, h⟩

omit hnumber hTs hAs in
theorem remaining_cases {n i d p q : Nat} {l : List (Nat × Nat)} (h : remaining Ts n i d p l q) :
    (p = q ∧ l = []) ∨ d < n ∧ chained (Ts (i + d)) (remaining Ts n i (d + 1)) p l q := by
  unfold remaining at h
  rcases hn : n - d with _ | k
  · rw [hn] at h
    exact .inl ⟨h.2, h.1⟩
  · rw [hn] at h
    rcases h with h | h
    · exact .inl ⟨h.2, h.1⟩
    · refine .inr ⟨by omega, ?_⟩
      unfold remaining
      rwa [show n - (d + 1) = k by omega]

/-- What brings one from the beginning of some options to where `d` of them are done. -/
def Route.taken (Ts : Nat → Route) (n i d : Nat) : Route := fun p l m =>
  ∀ l' q, remaining Ts n i d m l' q → remaining Ts n i 0 p (l ++ l') q

/-- A stop of a walk through some options: what is remembered there are choices of the options done,
and those that were remembered at the beginning. -/
structure Stopped (size : Nat) (number : Nat → Nat) (Ts : Nat → Route) (n i : Nat) (a : Arrival)
    (d : Nat) (b : Arrival) : Prop where
  inside : a.place ≤ b.place ∧ b.place ≤ size
  route : ∃ l, Leads (taken Ts n i d) a b l ∧ ∀ x ∈ l, x.2 < number (i + d)

variable {n i d : Nat} {a b c : Arrival}

omit hnumber hTs hAs in
theorem stopped_start (ha : a.place ≤ size) : Stopped size number Ts n i a 0 a := by
  refine ⟨⟨Nat.le_refl _, ha⟩, [], ⟨fun l q h => h, ?_, fun k hk => .inr ⟨rfl, hk⟩, fun _ =>
    List.Subset.refl _⟩, by simp⟩
  intro k hk
  simp

theorem Stopped.step (h : Stopped size number Ts n i a d b) (hd : d < n) (hc : c ∈ As (i + d) b) :
    Stopped size number Ts n i a (d + 1) c := by
  obtain ⟨⟨hab, hb⟩, l, hl, hnumbers⟩ := h
  obtain ⟨l', hl'⟩ := (hAs (i + d)).sound hb c hc
  have hbounds := (hTs (i + d)).bounds hl'.route hb
  have hboth := hl.trans hl' hab hbounds.1.1 fun x hx => (hbounds.2 x hx).1
  refine ⟨by omega, l ++ l', ⟨?_, hboth.allowed, hboth.made, hboth.kept⟩, ?_⟩
  · intro l'' q hrest
    rw [List.append_assoc]
    exact hl.route _ _ (remaining_of_chained hd hl'.route hrest)
  · intro x hx
    rcases List.mem_append.mp hx with hx | hx
    · exact Nat.lt_of_lt_of_le (hnumbers x hx) (hnumber (i + d))
    · exact ((hTs (i + d)).numbers hl'.route x hx).2

omit hnumber in
/-- From every stop a way through the options that are left leads to a stop. -/
theorem exists_stop_of_remaining {d : Nat} {b : Arrival} {stops : List (Nat × Arrival)}
    (hstops : Climbed Arrival.place As n i a stops)
    (hstopped : ∀ s ∈ stops, Stopped size number Ts n i a s.1 s.2) {l : List (Nat × Nat)} {q : Nat}
    (hb : (d, b) ∈ stops) (h : remaining Ts n i d b.place l q) (hallows : a.Allows l) :
    ∃ s ∈ stops, s.2.place = q := by
  rcases remaining_cases h with ⟨hplace, rfl⟩ | ⟨hd, m, l₁, l₂, rfl, ht, hrest⟩
  · exact ⟨_, hb, hplace⟩
  obtain ⟨⟨-, hinside⟩, l₀, hl₀, hnumbers⟩ := hstopped _ hb
  obtain ⟨hfirst, hsecond⟩ := Arrival.allows_append.mp hallows
  have hallowed := hl₀.allows_rest hnumbers (fun x hx => ((hTs (i + d)).numbers ht x hx).1) hfirst
  obtain ⟨c, hc, rfl⟩ := (hAs (i + d)).complete hinside ht hallowed
  obtain ⟨e, he, hplace⟩ := hstops.onward hb hd c hc
  rw [← hplace] at hrest
  exact exists_stop_of_remaining hstops hstopped he hrest hsecond
termination_by n - d

theorem Explores.options {greedy : Bool} {fuel : Nat} (n i : Nat)
    (hfew : ∀ i a, a.place ≤ size → (As i a).length ≤ size + 1)
    (hfuel : size + 1 + (n + 1) * (size + 1) * (size + 1 + 1) ≤ fuel) :
    Explores size (options Ts n i) (atMost Arrival.place (size + 1) fuel greedy As n i) := by
  have hclimbed : ∀ a : Arrival, a.place ≤ size → ∃ stops, Climbed Arrival.place As n i a stops ∧
      (∀ s ∈ stops, Stopped size number Ts n i a s.1 s.2) ∧
      atMost Arrival.place (size + 1) fuel greedy As n i a =
        Regex.firsts Arrival.place (stops.map Prod.snd) := by
    intro a ha
    refine atMost_climbed greedy (fun d b hb => Nat.lt_succ_of_le hb.inside.2) ?_ (stopped_start ha)
      hfuel
    intro d b hd hb
    exact ⟨hfew _ b hb.inside.2, fun c hc => hb.step hnumber hTs hAs hd hc⟩
  constructor
  · intro a ha b hb
    obtain ⟨stops, -, hstopped, heq⟩ := hclimbed a ha
    rw [heq] at hb
    obtain ⟨⟨d, b⟩, hmem, rfl⟩ := List.mem_map.mp (mem_firsts hb)
    obtain ⟨-, l, hl, -⟩ := hstopped _ hmem
    have hwhole := hl.route [] b.place (by
      unfold remaining
      cases n - d with
      | zero => exact ⟨rfl, rfl⟩
      | succ k => exact .inl ⟨rfl, rfl⟩)
    rw [List.append_nil] at hwhole
    exact ⟨l, hwhole, hl.allowed, hl.made, hl.kept⟩
  · intro a l q ha h hallows
    obtain ⟨stops, hstops, hstopped, heq⟩ := hclimbed a ha
    obtain ⟨e, he, hplace⟩ := hstops.start
    have hrest : remaining Ts n i 0 e.place l q := by
      rw [hplace]
      exact h
    obtain ⟨s, hs, rfl⟩ := exists_stop_of_remaining hTs hAs hstops hstopped he hrest hallows
    rw [heq]
    exact exists_firsts (List.mem_map.mpr ⟨s, hs, rfl⟩)

end Chains

/-- The choice in front of a match that may be left out, as the matcher makes it. -/
def enterFrom (number : Nat → Nat) (most i : Nat) (a : Arrival) : List Arrival :=
  if i < most then (a.choose? (number i)).toList else [a]

theorem length_enterFrom_le (number : Nat → Nat) (most i : Nat) (a : Arrival) :
    (enterFrom number most i a).length ≤ 1 := by
  unfold enterFrom
  split
  · exact Option.length_toList_le
  · exact Nat.le_refl 1

theorem Explores.enter (number : Nat → Nat) (most i : Nat) :
    Explores size (enter number most i) (enterFrom number most i) := by
  unfold Route.enter enterFrom
  split
  · have hskip : Lawful size (number i + 1) (number i + 1) Route.skip := .skip
    have h := choose hskip.fresh skip
    convert h using 2 with a
    unfold Arrival.choose
    cases a.choose? (number i) <;> rfl
  · exact skip

/-- All of a counted repetition is explored if its body is, wherever a copy of the body stands. -/
theorem Explores.counted {text : Array UInt8} (hnumber : ∀ i, number i < number (i + 1))
    (hTs : ∀ i, Lawful text.size (number i + 1) (number (i + 1)) (Ts i))
    (hAs : ∀ i, Explores text.size (Ts i) (As i))
    (hfew : ∀ i a, a.place ≤ text.size → (As i a).length ≤ text.size + 1) (greedy : Bool)
    (least most : Nat) :
    Explores text.size (counted number least most Ts)
      (arrivalsBetween text greedy least most number As) := by
  have hle : ∀ i, number i ≤ number (i + 1) := fun i => Nat.le_of_lt (hnumber i)
  have hwhole := Lawful.whole hTs
  -- A match that may be left out, together with the choice in front of the next one.
  let body (i : Nat) (a : Arrival) : List Arrival :=
    (As i a).flatMap (enterFrom number most (i + 1))
  have hlawful := Lawful.optional hnumber hTs most
  have hbody : ∀ i, Explores text.size (Route.chained (Ts i) (Route.enter number most (i + 1)))
      (body i) := fun i => flatMap (hTs i) (Lawful.enter most (i + 1)) (hAs i) (enter number most _)
  have hbodyFew : ∀ i a, a.place ≤ text.size → (body i a).length ≤ text.size + 1 := by
    intro i a ha
    exact Nat.le_trans (length_flatMap_le fun b _ => length_enterFrom_le number most (i + 1) b)
      (hfew i a ha)
  have hnext : ∀ i, number i + 1 ≤ number (i + 1) + 1 := fun i => Nat.succ_le_succ (hle i)
  have hoptions : Explores text.size _ (atMost Arrival.place (text.size + 1)
      ((most + 1) * walkFuel text) greedy body (most - least) least) :=
    options hnext hlawful hbody (most - least) least hbodyFew
      (atMostFuel_suffices (Nat.le_refl text.size))
  have hrest : Lawful text.size (number least + 1) (number (least + (most - least)) + 1) _ :=
    Lawful.options hnext hlawful (most - least) least
  have hlast : number least + 1 ≤ number (least + (most - least)) + 1 :=
    Nat.succ_le_succ (Lawful.number_le hle least (most - least))
  exact chained (Lawful.copies hle hwhole least)
    ((Lawful.enter most least).chained hrest (Nat.le_succ _) hlast)
    (copies hle hwhole hAs least)
    (chained (Lawful.enter most least) hrest (enter number most least) hoptions)

end Counted

end Backtrack.Regex
