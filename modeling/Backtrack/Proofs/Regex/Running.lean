import Backtrack.Proofs.Regex.Counting

/-!
# Steps one after another

Steps that a list enumerates are followed to everything that any number of them leads to, exactly as
many as are demanded, or at most a given number. Where each step goes forward, no choice can be made
twice, and so the walk along the steps explores all routes of their laps.
-/

namespace Backtrack

namespace Steps

variable {α : Type} {R : α → α → Prop} {m n : Nat} {a c : α}

/-- A first step and the steps behind it. -/
theorem exists_first (h : Steps R (n + 1) a c) : ∃ b, R a b ∧ Steps R n b c := by
  induction n generalizing c with
  | zero =>
    cases h with
    | @succ _ _ b _ h hlast =>
      cases h
      exact ⟨c, hlast, .zero c⟩
  | succ n ih =>
    cases h with
    | succ h hlast =>
      obtain ⟨b, hfirst, hrest⟩ := ih h
      exact ⟨b, hfirst, .succ hrest hlast⟩

theorem split (h : Steps R (m + n) a c) : ∃ b, Steps R m a b ∧ Steps R n b c := by
  induction n generalizing c with
  | zero => exact ⟨c, h, .zero c⟩
  | succ n ih =>
    cases h with
    | succ h hlast =>
      obtain ⟨b, hfirst, hrest⟩ := ih h
      exact ⟨b, hfirst, .succ hrest hlast⟩

end Steps

namespace Regex

open Route

section Running

variable {size n : Nat} {M : Nat → Nat → Prop} {step : Nat → List Nat}

structure Enumerates (size : Nat) (M : Nat → Nat → Prop) (step : Nat → List Nat) : Prop where
  bounds : ∀ {p q}, M p q → p ≤ size → p ≤ q ∧ q ≤ size
  sound : ∀ p, ∀ q ∈ step p, M p q
  complete : ∀ {p q}, p ≤ size → M p q → q ∈ step p
  few : ∀ p, p ≤ size → (step p).length ≤ size + 1

variable (hM : Enumerates size M step)
include hM

theorem Enumerates.inside {p : Nat} (hp : p ≤ size) : ∀ q ∈ step p, q ≤ size :=
  fun q hq => (hM.bounds (hM.sound p q hq) hp).2

theorem Enumerates.mem_of_steps {init stops : List Nat} (hstops : Explored id step init stops)
    (hinside : ∀ p ∈ stops, p ≤ size) {k p q : Nat} (h : Steps M k p q) (hp : p ∈ stops) :
    q ∈ stops := by
  induction h with
  | zero => exact hp
  | succ _ hlast ih =>
    have hm := ih hp
    obtain ⟨r, hr, rfl⟩ := hstops.onward _ hm _ (hM.complete (hinside _ hm) hlast)
    exact hr

section Walks

variable {greedy : Bool} {fuel k p q : Nat}
variable (hfuel : size + 1 + (size + 1) * (size + 1 + 1) ≤ fuel) (hp : p ≤ size)
include hfuel hp

theorem Enumerates.mem_walkFrom (h : Steps M k p q) : q ∈ walkFrom id greedy step fuel [p] := by
  have hinit : ∀ p' ∈ [p], p' ≤ size := by simpa using hp
  have hstops : Explored id step [p] (walkFrom id greedy step fuel [p]) :=
    walkFrom_explored greedy (fun p hp => Nat.lt_succ_of_le hp)
      (fun p hp => ⟨hM.few p hp, hM.inside hp⟩) hinit (Nat.succ_le_succ (Nat.zero_le size)) hfuel
  obtain ⟨r, hr, rfl⟩ := hstops.start p List.mem_cons_self
  exact hM.mem_of_steps hstops (walkFrom_forall (fun p hp => hM.inside hp) hinit) h hr

theorem Enumerates.mem_walkFrom_step (h : Steps M k p q) (hk : 0 < k) :
    q ∈ walkFrom id greedy step fuel (step p) := by
  have hinit := hM.inside hp
  have hstops : Explored id step (step p) (walkFrom id greedy step fuel (step p)) :=
    walkFrom_explored greedy (fun p hp => Nat.lt_succ_of_le hp)
      (fun p hp => ⟨hM.few p hp, hM.inside hp⟩) hinit (hM.few p hp) hfuel
  obtain ⟨k, rfl⟩ : ∃ k', k = k' + 1 := ⟨k - 1, by omega⟩
  obtain ⟨m, hfirst, hrest⟩ := h.exists_first
  obtain ⟨r, hr, rfl⟩ := hstops.start m (hM.complete hp hfirst)
  exact hM.mem_of_steps hstops (walkFrom_forall (fun p hp => hM.inside hp) hinit) hrest hr

end Walks

theorem Enumerates.mem_exactly {i k p q : Nat} (hp : p ≤ size) (h : Steps M k p q) :
    q ∈ exactly id (fun _ => step) k i [p] := by
  induction h with
  | zero => exact List.mem_cons_self
  | @succ k _ m q h hlast ih =>
    have hm := (h.bounds (fun _ _ => hM.bounds) hp).2
    rw [exactly_succ]
    exact mem_firsts_id (List.mem_flatMap.mpr ⟨m, ih hp, hM.complete hm hlast⟩)

theorem Enumerates.mem_atMost {greedy : Bool} {fuel i k n p q : Nat} (hp : p ≤ size)
    (hfuel : size + 1 + (n + 1) * (size + 1) * (size + 1 + 1) ≤ fuel) (hk : k ≤ n)
    (h : Steps M k p q) : q ∈ atMost id (size + 1) fuel greedy (fun _ => step) n i p := by
  have hclimbed : ∃ stops, Climbed id (fun _ => step) n i p stops ∧ (∀ s ∈ stops, s.2 ≤ size) ∧
      atMost id (size + 1) fuel greedy (fun _ => step) n i p = firsts id (stops.map Prod.snd) :=
    atMost_climbed greedy (fun _ p hp => Nat.lt_succ_of_le hp)
      (fun _ p _ hp => ⟨hM.few p hp, hM.inside hp⟩) hp hfuel
  obtain ⟨stops, hstops, hinside, heq⟩ := hclimbed
  have hreached : (k, q) ∈ stops := by
    induction h with
    | zero =>
      obtain ⟨e, he, rfl⟩ := hstops.start
      exact he
    | @succ k _ m q h hlast ih =>
      have hm := ih hp (by omega) hstops heq
      obtain ⟨e, he, rfl⟩ := hstops.onward hm (by omega) q (hM.complete (hinside _ hm) hlast)
      exact he
  rw [heq]
  exact mem_firsts_id (List.mem_map.mpr ⟨_, hreached, rfl⟩)

theorem Enumerates.mem_endsBetween {text : Array UInt8} (hsize : size = text.size) {greedy : Bool}
    {least most k p q : Nat} (hp : p ≤ size) (hleast : least ≤ k) (hmost : k ≤ max least most)
    (h : Steps M k p q) : q ∈ endsBetween text greedy least most step p := by
  obtain ⟨n, rfl⟩ : ∃ n, k = least + n := ⟨k - least, by omega⟩
  obtain ⟨m, hfirst, hrest⟩ := h.split
  have hm := (hfirst.bounds (fun _ _ => hM.bounds) hp).2
  subst hsize
  exact mem_firsts_id (List.mem_flatMap.mpr ⟨m, hM.mem_exactly hp hfirst,
    hM.mem_atMost hm (atMostFuel_suffices (Nat.le_refl _)) (by omega) hrest⟩)

end Running

section Laps

variable {size n : Nat} {M : Nat → Nat → Prop} {T : Route} {p q : Nat} {l : List (Nat × Nat)}

theorem exists_laps (hM : ∀ {p q}, M p q → p ≤ size → p ≤ q ∧ q ≤ size)
    (hT : ∀ {p q}, p ≤ size → M p q → ∃ l, T p l q) {k : Nat} (h : Steps M k p q)
    (hp : p ≤ size) : ∃ l, Laps n T p l q ∧ (0 < k → l ≠ []) := by
  induction h with
  | zero => exact ⟨[], .nil _, fun h => absurd h (Nat.lt_irrefl 0)⟩
  | @succ k _ m q h hlast ih =>
    obtain ⟨l, hlaps, -⟩ := ih hp
    obtain ⟨l', ht⟩ := hT (h.bounds (fun _ _ => hM) hp).2 hlast
    refine ⟨l ++ (l' ++ [(q, n)]), laps_lap hlaps ⟨l', rfl, ht⟩, ?_⟩
    simp

theorem steps_of_laps (h : Laps n (plain M) p l q) : ∃ k, Steps M k p q ∧ (l ≠ [] → 0 < k) := by
  induction h with
  | nil p => exact ⟨0, .zero p, fun h => absurd rfl h⟩
  | cons ht _ ih =>
    obtain ⟨k, hk, -⟩ := ih
    exact ⟨1 + k, (Steps.single ht.2).trans hk, fun _ => by omega⟩

theorem last_of_laps (h : Laps n T p l q) (hne : l ≠ []) : (q, n) ∈ l := by
  induction h with
  | nil p => exact absurd rfl hne
  | cons _ hlaps ih =>
    cases hlaps with
    | nil => simp
    | cons => exact List.mem_append_right _ (List.mem_cons_of_mem _ (ih (by simp)))

variable (hM : ∀ {p q}, M p q → p ≤ size → p < q ∧ q ≤ size)
include hM

theorem forward_of_laps (h : Laps n (plain M) p l q) (hp : p ≤ size) : ∀ x ∈ l, p < x.1 := by
  induction h with
  | nil p => simp
  | cons ht _ ih =>
    obtain ⟨rfl, hm⟩ := ht
    have hbounds := hM hm hp
    refine List.forall_mem_cons.mpr ⟨hbounds.1, fun x hx => ?_⟩
    have hx := ih hbounds.2 x hx
    omega

/-- What was chosen before is not chosen again on laps that go forward. -/
theorem allows_of_laps {a : Arrival} (h : Laps n (plain M) a.place l q) (ha : a.place ≤ size) :
    a.Allows l := by
  intro k _ hmem
  exact Nat.lt_irrefl _ (forward_of_laps hM h ha _ hmem)

end Laps

section Counted

variable {size : Nat} {M : Nat → Nat → Prop} {Ts : Nat → Route} {p q k : Nat}
variable (hM : ∀ {p q}, M p q → p ≤ size → p ≤ q ∧ q ≤ size)
variable (hTs : ∀ i {p q}, p ≤ size → M p q → ∃ l, Ts i p l q)
include hM hTs

theorem exists_copies (h : Steps M k p q) (hp : p ≤ size) : ∃ l, copies Ts k p l q := by
  induction h with
  | zero => exact ⟨[], rfl, rfl⟩
  | @succ k _ m q h hlast ih =>
    obtain ⟨l, hl⟩ := ih hp
    obtain ⟨l', hl'⟩ := hTs k (h.bounds (fun _ _ => hM) hp).2 hlast
    exact ⟨l ++ l', m, l, l', rfl, hl, hl'⟩

theorem exists_options {n i : Nat} (h : Steps M k p q) (hk : k ≤ n) (hp : p ≤ size) :
    ∃ l, options Ts n i p l q := by
  induction n generalizing k i p with
  | zero =>
    obtain rfl : k = 0 := by omega
    cases h
    exact ⟨[], rfl, rfl⟩
  | succ n ih =>
    rcases k with _ | k
    · cases h
      exact ⟨[], .inl ⟨rfl, rfl⟩⟩
    · obtain ⟨m, hfirst, hrest⟩ := h.exists_first
      obtain ⟨l, hl⟩ := hTs i hp hfirst
      obtain ⟨l', hl'⟩ := ih (i := i + 1) hrest (by omega) (hM hfirst hp).2
      exact ⟨l ++ l', .inr ⟨m, l, l', rfl, hl, hl'⟩⟩

omit hM hTs in
theorem exists_enter (number : Nat → Nat) (most i p : Nat) : ∃ l, enter number most i p l p := by
  unfold enter
  split
  · exact ⟨[(p, number i)], [], rfl, rfl, rfl⟩
  · exact ⟨[], rfl, rfl⟩

theorem exists_counted {number : Nat → Nat} {least most : Nat} (hleast : least ≤ k)
    (hmost : k ≤ max least most) (h : Steps M k p q) (hp : p ≤ size) :
    ∃ l, counted number least most Ts p l q := by
  obtain ⟨n, rfl⟩ : ∃ n, k = least + n := ⟨k - least, by omega⟩
  obtain ⟨m, hfirst, hrest⟩ := h.split
  have hm := (hfirst.bounds (fun _ _ => hM) hp).2
  obtain ⟨l, hl⟩ := exists_copies hM hTs hfirst hp
  obtain ⟨l', hl'⟩ := exists_enter number most least m
  have hopen : ∀ i {p q}, p ≤ size → M p q →
      ∃ l, chained (Ts i) (enter number most (i + 1)) p l q := by
    intro i p q hp h
    obtain ⟨l, hl⟩ := hTs i hp h
    obtain ⟨l', hl'⟩ := exists_enter number most (i + 1) q
    exact ⟨l ++ l', q, l, l', rfl, hl, hl'⟩
  obtain ⟨l'', hl''⟩ := exists_options (n := most - least) (i := least) hM hopen hrest (by omega) hm
  exact ⟨l ++ (l' ++ l''), m, l, _, rfl, hl, m, l', l'', rfl, hl', hl''⟩

end Counted

section Runs

variable {size n : Nat} {M : Nat → Nat → Prop} {step : Nat → List Nat} {greedy : Bool} {fuel : Nat}

theorem leads_run {a : Arrival} {q : Nat} {l : List (Nat × Nat)}
    (hM : ∀ {p q}, M p q → p ≤ size → p < q ∧ q ≤ size) (ha : a.place ≤ size)
    (h : Laps n (plain M) a.place l q) (hne : l ≠ []) : Leads (loop n (plain M)) a ⟨q, [n]⟩ l := by
  have hlast := last_of_laps h hne
  have hforward := forward_of_laps hM h ha _ hlast
  refine ⟨⟨h, hne⟩, allows_of_laps hM h ha, ?_, ?_⟩
  · intro k hk
    rw [List.mem_singleton.mp hk]
    exact .inl hlast
  · intro hplace
    dsimp only at hplace hforward
    omega

variable (hstep : Enumerates size M step) (hM : ∀ {p q}, M p q → p ≤ size → p < q ∧ q ≤ size)
variable (hfuel : size + 1 + (size + 1) * (size + 1 + 1) ≤ fuel)
include hstep hM hfuel

theorem Explores.runPlus : Explores size (loop n (plain M)) (runPlus greedy n fuel step) := by
  constructor
  · intro a ha b hb
    obtain ⟨q, hq, rfl⟩ := List.mem_map.mp hb
    obtain ⟨k, hk, hsteps⟩ := Regex.mem_walkFrom_step hstep.sound hq
    obtain ⟨l, hlaps, hne⟩ := exists_laps (n := n) (T := plain M) hstep.bounds
      (fun _ h => ⟨[], rfl, h⟩) hsteps ha
    exact ⟨l, leads_run hM ha hlaps (hne hk)⟩
  · rintro a l q ha ⟨hlaps, hne⟩ -
    obtain ⟨k, hsteps, hpos⟩ := steps_of_laps hlaps
    exact ⟨_, List.mem_map.mpr ⟨q, hstep.mem_walkFrom_step hfuel ha hsteps (hpos hne), rfl⟩, rfl⟩

theorem Explores.runStar : Explores size (run n (plain M)) (runStar greedy n fuel step) := by
  refine choose (fun hp h hmem => Nat.lt_irrefl _ (forward_of_laps hM h hp _ hmem)) ⟨?_, ?_⟩
  · intro a ha b hb
    obtain ⟨q, hq, rfl⟩ := List.mem_map.mp hb
    by_cases hplace : q = a.place
    · rw [if_pos hplace]
      refine ⟨[], ⟨.nil _, ?_, fun k hk => .inr ⟨rfl, hk⟩, fun _ => List.Subset.refl _⟩⟩
      intro k hk
      simp
    · rw [if_neg hplace]
      obtain ⟨k, hsteps⟩ := Regex.mem_walkFrom hstep.sound hq
      obtain ⟨l, hlaps, hne⟩ := exists_laps (n := n) (T := plain M) hstep.bounds
        (fun _ h => ⟨[], rfl, h⟩) hsteps ha
      have hpos : 0 < k := by
        cases hsteps with
        | zero => exact absurd rfl hplace
        | succ => exact Nat.succ_pos _
      have hleads := leads_run hM ha hlaps (hne hpos)
      exact ⟨l, hlaps, hleads.allowed, hleads.made, hleads.kept⟩
  · rintro a l q ha hlaps -
    obtain ⟨k, hsteps, -⟩ := steps_of_laps hlaps
    refine ⟨_, List.mem_map.mpr ⟨q, hstep.mem_walkFrom hfuel ha hsteps, rfl⟩, ?_⟩
    split
    · rename_i hplace
      exact hplace.symm
    · rfl

end Runs

end Regex
end Backtrack
