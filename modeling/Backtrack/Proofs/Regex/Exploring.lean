import Backtrack.Proofs.Regex.Routes
import Backtrack.Proofs.Regex.Closure
import Backtrack.Proofs.Regex.Locality

/-!
# Exploring with remembered choices

The matcher goes along all routes on which no choice is made twice at one place. Every route can be
cut short to such a one with the same end, so the matcher comes to all ends. For most operators this
is plain; in a loop, where one lap begins where another ended, the choices that are remembered are
those of one way to that place, and a lap that makes one of them again crosses over to that way.

Orders of preference play no part in this module.
-/

namespace Backtrack.Regex

open Route

/-- Whether a match from an arrival makes none of the choices again that were made there. -/
def Arrival.Allows (a : Arrival) (l : List (Nat × Nat)) : Prop :=
  ∀ k ∈ a.choices, (a.place, k) ∉ l

/-- A match that leads from one arrival to another. What is remembered at the second one was chosen
on the way, or before at the same place. -/
structure Leads (T : Route) (a b : Arrival) (l : List (Nat × Nat)) : Prop where
  route : T a.place l b.place
  allowed : a.Allows l
  made : ∀ k ∈ b.choices, (b.place, k) ∈ l ∨ b.place = a.place ∧ k ∈ a.choices
  kept : b.place = a.place → a.choices ⊆ b.choices

theorem Arrival.allows_append {a : Arrival} {l l' : List (Nat × Nat)} :
    a.Allows (l ++ l') ↔ a.Allows l ∧ a.Allows l' := by
  simp only [Arrival.Allows, List.mem_append, not_or, forall_and]

theorem Leads.trans {T S : Route} {a b c : Arrival} {l l' : List (Nat × Nat)} (h : Leads T a b l)
    (h' : Leads S b c l') (hab : a.place ≤ b.place) (hbc : b.place ≤ c.place)
    (hl' : ∀ x ∈ l', b.place ≤ x.1) : Leads (chained T S) a c (l ++ l') := by
  refine ⟨⟨b.place, l, l', rfl, h.route, h'.route⟩, ?_, ?_, ?_⟩
  · intro k hk hmem
    rcases List.mem_append.mp hmem with hmem | hmem
    · exact h.allowed k hk hmem
    · have hplace : b.place = a.place := Nat.le_antisymm (hl' _ hmem) hab
      rw [← hplace] at hmem
      exact h'.allowed k (h.kept hplace hk) hmem
  · intro k hk
    rcases h'.made k hk with hmade | ⟨hplace, hk⟩
    · exact .inl (List.mem_append_right l hmade)
    · rw [hplace]
      rcases h.made k hk with hmade | hbefore
      · exact .inl (List.mem_append_left l' hmade)
      · exact .inr hbefore
  · intro hplace
    have hb : b.place = a.place := by omega
    exact List.Subset.trans (h.kept hb) (h'.kept (by omega))

/-- Choices made on the first part of a way are none of the second part. -/
theorem Leads.allows_rest {T : Route} {a b : Arrival} {l l' : List (Nat × Nat)} {mid : Nat}
    (h : Leads T a b l) (hl : ∀ x ∈ l, x.2 < mid) (hl' : ∀ x ∈ l', mid ≤ x.2)
    (hallows : a.Allows l') : b.Allows l' := by
  intro k hk hmem
  rcases h.made k hk with hmade | ⟨hplace, hbefore⟩
  · have hx := hl _ hmade
    have hx' := hl' _ hmem
    omega
  · rw [hplace] at hmem
    exact hallows k hbefore hmem

/-- The arrivals that are listed are those that matches with certain routes lead to, as far as the
matches make no choice twice at one place. -/
structure Explores (size : Nat) (T : Route) (A : Arrival → List Arrival) : Prop where
  sound : ∀ {a}, a.place ≤ size → ∀ b ∈ A a, ∃ l, Leads T a b l
  complete : ∀ {a l q}, a.place ≤ size → T a.place l q → a.Allows l → ∃ b ∈ A a, b.place = q

section Lists

variable {α : Type} {key : α → Nat}

theorem mem_stops {greedy : Bool} {a b : α} {more : List α} :
    b ∈ (if greedy then more ++ [a] else a :: more) ↔ b = a ∨ b ∈ more := by
  split
  · rw [List.mem_append, List.mem_singleton, or_comm]
  · exact List.mem_cons

end Lists

theorem choose?_eq_some {a b : Arrival} {n : Nat} :
    a.choose? n = some b ↔ n ∉ a.choices ∧ b = ⟨a.place, n :: a.choices⟩ := by
  unfold Arrival.choose?
  split
  · rename_i h
    simp at h
    simp [h]
  · rename_i h
    simp at h
    simp [h, eq_comm]

theorem mem_choose_iff {a b : Arrival} {n : Nat} {next : Arrival → List Arrival} :
    b ∈ a.choose n next ↔ n ∉ a.choices ∧ b ∈ next ⟨a.place, n :: a.choices⟩ := by
  unfold Arrival.choose
  cases h : a.choose? n with
  | none =>
    have hmade : n ∈ a.choices := by
      by_contra hfree
      rw [choose?_eq_some.mpr ⟨hfree, rfl⟩] at h
      cases h
    simp [hmade]
  | some c =>
    obtain ⟨hfree, rfl⟩ := choose?_eq_some.mp h
    simp [hfree]

variable {size lo mid hi n : Nat} {T S : Route} {A B : Arrival → List Arrival}

namespace Explores

theorem skip : Explores size skip (fun a => [a]) := by
  constructor
  · intro a ha b hb
    rw [List.mem_singleton.mp hb]
    refine ⟨[], ⟨rfl, rfl⟩, ?_, fun k hk => .inr ⟨rfl, hk⟩, fun _ => List.Subset.refl _⟩
    intro k hk
    simp
  · rintro a l q ha ⟨rfl, rfl⟩ -
    exact ⟨a, List.mem_singleton_self a, rfl⟩

theorem inside (hT : Lawful size lo hi T) (hA : Explores size T A) {a : Arrival}
    (ha : a.place ≤ size) : ∀ b ∈ A a, b.place ≤ size := by
  intro b hb
  obtain ⟨l, hl⟩ := hA.sound ha b hb
  exact (hT.bounds hl.route ha).1.2

theorem firsts (hA : Explores size T A) :
    Explores size T (fun a => Regex.firsts Arrival.place (A a)) := by
  constructor
  · intro a ha b hb
    exact hA.sound ha b (mem_firsts hb)
  · intro a l q ha ht hallows
    obtain ⟨b, hb, rfl⟩ := hA.complete ha ht hallows
    exact exists_firsts hb

theorem flatMap (hT : Lawful size lo mid T) (hS : Lawful size mid hi S) (hA : Explores size T A)
    (hB : Explores size S B) : Explores size (chained T S) (fun a => (A a).flatMap B) := by
  constructor
  · intro a ha c hc
    obtain ⟨b, hb, hc⟩ := List.mem_flatMap.mp hc
    obtain ⟨l, hl⟩ := hA.sound ha b hb
    have hbounds := hT.bounds hl.route ha
    obtain ⟨l', hl'⟩ := hB.sound hbounds.1.2 c hc
    have hbounds' := hS.bounds hl'.route hbounds.1.2
    exact ⟨l ++ l', hl.trans hl' hbounds.1.1 hbounds'.1.1 fun x hx => (hbounds'.2 x hx).1⟩
  · rintro a l q ha ⟨m, l₁, l₂, rfl, ht, hs⟩ hallows
    obtain ⟨b, hb, rfl⟩ := hA.complete ha ht (Arrival.allows_append.mp hallows).1
    obtain ⟨l, hl⟩ := hA.sound ha b hb
    have hbounds := hT.bounds hl.route ha
    obtain ⟨c, hc, rfl⟩ := hB.complete hbounds.1.2 hs (hl.allows_rest
      (fun x hx => (hT.numbers hl.route x hx).2) (fun x hx => (hS.numbers hs x hx).1)
      (Arrival.allows_append.mp hallows).2)
    exact ⟨c, List.mem_flatMap.mpr ⟨b, hb, hc⟩, rfl⟩

theorem chained (hT : Lawful size lo mid T) (hS : Lawful size mid hi S) (hA : Explores size T A)
    (hB : Explores size S B) :
    Explores size (chained T S) (fun a => continueFrom Arrival.place (A a) B) :=
  (flatMap hT hS hA hB).firsts

theorem either (hA : Explores size T A) (hB : Explores size S B) :
    Explores size (either T S) (fun a => Regex.firsts Arrival.place (A a ++ B a)) := by
  constructor
  · intro a ha b hb
    rcases List.mem_append.mp (mem_firsts hb) with hb | hb
    · obtain ⟨l, hl⟩ := hA.sound ha b hb
      exact ⟨l, .inl hl.route, hl.allowed, hl.made, hl.kept⟩
    · obtain ⟨l, hl⟩ := hB.sound ha b hb
      exact ⟨l, .inr hl.route, hl.allowed, hl.made, hl.kept⟩
  · rintro a l q ha (ht | hs) hallows
    · obtain ⟨b, hb, rfl⟩ := hA.complete ha ht hallows
      exact exists_firsts (List.mem_append_left _ hb)
    · obtain ⟨b, hb, rfl⟩ := hB.complete ha hs hallows
      exact exists_firsts (List.mem_append_right _ hb)

theorem withStop (greedy : Bool) (hA : Explores size T A) :
    Explores size (Route.either Route.skip T)
      (fun a => Regex.withStop Arrival.place greedy a (A a)) := by
  constructor
  · intro a ha b hb
    rcases mem_withStop hb with rfl | hb
    · obtain ⟨l, hl⟩ := skip.sound ha b (List.mem_singleton_self b)
      exact ⟨l, .inl hl.route, hl.allowed, hl.made, hl.kept⟩
    · obtain ⟨l, hl⟩ := hA.sound ha b hb
      exact ⟨l, .inr hl.route, hl.allowed, hl.made, hl.kept⟩
  · rintro a l q ha (⟨rfl, rfl⟩ | ht) hallows
    · exact exists_firsts (mem_stops.mpr (.inl rfl))
    · obtain ⟨b, hb, rfl⟩ := hA.complete ha ht hallows
      exact exists_firsts (mem_stops.mpr (.inr hb))

theorem choose (hfresh : ∀ {p l q}, p ≤ size → T p l q → (p, n) ∉ l) (hA : Explores size T A) :
    Explores size (choice n T) (fun a => a.choose n A) := by
  constructor
  · intro a ha b hb
    obtain ⟨hfree, hb⟩ := mem_choose_iff.mp hb
    obtain ⟨l, hl⟩ := hA.sound (a := ⟨a.place, n :: a.choices⟩) ha b hb
    have hmem : ∀ k ∈ a.choices, k ∈ n :: a.choices := fun k hk => List.mem_cons_of_mem n hk
    refine ⟨(a.place, n) :: l, ⟨l, rfl, hl.route⟩, ?_, ?_, ?_⟩
    · intro k hk hmade
      rcases List.mem_cons.mp hmade with heq | hmade
      · cases heq
        exact hfree hk
      · exact hl.allowed k (hmem k hk) hmade
    · intro k hk
      rcases hl.made k hk with hmade | ⟨hplace, hk⟩
      · exact .inl (List.mem_cons_of_mem _ hmade)
      · rcases List.mem_cons.mp hk with rfl | hk
        · rw [hplace]
          exact .inl List.mem_cons_self
        · exact .inr ⟨hplace, hk⟩
    · intro hplace k hk
      exact hl.kept hplace (hmem k hk)
  · rintro a l q ha ⟨l, rfl, ht⟩ hallows
    have hfree : n ∉ a.choices := fun hn => hallows n hn List.mem_cons_self
    have hallows' : Arrival.Allows ⟨a.place, n :: a.choices⟩ l := by
      intro k hk hmade
      rcases List.mem_cons.mp hk with rfl | hk
      · exact hfresh ha ht hmade
      · exact hallows k hk (List.mem_cons_of_mem _ hmade)
    obtain ⟨b, hb, hplace⟩ := hA.complete (a := ⟨a.place, n :: a.choices⟩) ha ht hallows'
    exact ⟨b, mem_choose_iff.mpr ⟨hfree, hb⟩, hplace⟩

end Explores

/-- A lap with a choice behind it. -/
def Route.lap (n : Nat) (T : Route) : Route := fun p l q => ∃ l', l = l' ++ [(q, n)] ∧ T p l' q

theorem loop_of_lap {p q : Nat} {l : List (Nat × Nat)} (h : lap n T p l q) : loop n T p l q := by
  obtain ⟨l, rfl, ht⟩ := h
  exact ⟨.cons ht (.nil q), by simp⟩

theorem laps_lap {p m q : Nat} {l l' : List (Nat × Nat)} (h : Laps n T p l m)
    (h' : lap n T m l' q) : Laps n T p (l ++ l') q := by
  induction h with
  | nil p => exact (loop_of_lap h').1
  | cons ht _ ih =>
    rw [List.append_assoc, List.cons_append]
    exact .cons ht (ih h')

section Loop

variable (hT : Lawful size (n + 1) hi T) (hA : Explores size T A)

def lapFrom (n : Nat) (A : Arrival → List Arrival) (a : Arrival) : List Arrival :=
  (A a).filterMap (·.choose? n)

theorem mem_lapFrom {a b : Arrival} :
    b ∈ lapFrom n A a ↔ ∃ c ∈ A a, n ∉ c.choices ∧ b = ⟨c.place, n :: c.choices⟩ := by
  simp only [lapFrom, List.mem_filterMap, choose?_eq_some]

include hT hA

theorem leads_lapFrom {a b : Arrival} (ha : a.place ≤ size) (hb : b ∈ lapFrom n A a) :
    ∃ l, Leads (lap n T) a b l := by
  obtain ⟨c, hc, hfree, rfl⟩ := mem_lapFrom.mp hb
  obtain ⟨l, hl⟩ := hA.sound ha c hc
  refine ⟨l ++ [(c.place, n)], ⟨l, rfl, hl.route⟩, ?_, ?_, ?_⟩
  · intro k hk hmem
    rcases List.mem_append.mp hmem with hmem | hmem
    · exact hl.allowed k hk hmem
    · obtain ⟨hplace, rfl⟩ := Prod.mk.inj (List.mem_singleton.mp hmem)
      exact hfree (hl.kept hplace.symm hk)
  · intro k hk
    rcases List.mem_cons.mp hk with rfl | hk
    · exact .inl (by simp)
    · rcases hl.made k hk with hmade | hbefore
      · exact .inl (List.mem_append_left _ hmade)
      · exact .inr hbefore
  · intro hplace k hk
    exact List.mem_cons_of_mem n (hl.kept hplace hk)

/-- A lap is listed unless it comes back to where its choice was made before. -/
theorem exists_lapFrom {a : Arrival} {l : List (Nat × Nat)} {q : Nat} (ha : a.place ≤ size)
    (ht : T a.place l q) (hallows : a.Allows l) (hq : q = a.place → n ∉ a.choices) :
    ∃ b ∈ lapFrom n A a, b.place = q := by
  obtain ⟨c, hc, rfl⟩ := hA.complete ha ht hallows
  refine ⟨_, mem_lapFrom.mpr ⟨c, hc, ?_, rfl⟩, rfl⟩
  intro hmade
  obtain ⟨l', hl'⟩ := hA.sound ha c hc
  rcases hl'.made n hmade with hmem | ⟨hplace, hbefore⟩
  · have hx := hT.numbers hl'.route _ hmem
    omega
  · exact hq hplace hbefore

/-- A match that makes a choice again which was made on a lap before crosses over: that lap leads to
its end as well. -/
theorem exists_crossing {e c : Arrival} {l : List (Nat × Nat)} {q : Nat} (he : e.place ≤ size)
    (hc : c ∈ lapFrom n A e) (ht : T c.place l q) (hearlier : e.place = c.place → e.Allows l)
    (hagain : ¬ c.Allows l) : ∃ l', T e.place l' q ∧ e.Allows l' := by
  obtain ⟨d, hd, -, rfl⟩ := mem_lapFrom.mp hc
  obtain ⟨l₀, hl₀⟩ := hA.sound he d hd
  have hbounds := (hT.bounds hl₀.route he).1
  have hplaces := (hT.bounds ht hbounds.2).2
  unfold Arrival.Allows at hagain
  push Not at hagain
  obtain ⟨k, hk, hmem⟩ := hagain
  dsimp only at ht hearlier hmem
  -- The choice is one inside the lap, and it was made on the way to `d`.
  have hkd : k ∈ d.choices := by
    rcases List.mem_cons.mp hk with rfl | hk
    · have hx := hT.numbers ht _ hmem
      omega
    · exact hk
  have hmade : (d.place, k) ∈ l₀ := by
    rcases hl₀.made k hkd with hmade | ⟨hplace, hbefore⟩
    · exact hmade
    · have hallows := hearlier hplace.symm k hbefore
      rw [← hplace] at hallows
      exact absurd hmem hallows
  obtain ⟨l₁, l₂, rfl⟩ := List.append_of_mem hmem
  obtain ⟨u, v, rfl⟩ := List.append_of_mem hmade
  refine ⟨u ++ (d.place, k) :: l₂, hT.cross hl₀.route ht, ?_⟩
  intro k' hk' hother
  rcases List.mem_append.mp hother with hother | hother
  · exact hl₀.allowed k' hk' (List.mem_append_left _ hother)
  · have hother' : (e.place, k') ∈ l₁ ++ (d.place, k) :: l₂ := List.mem_append_right _ hother
    have hplace := (hplaces _ hother').1
    dsimp only at hplace
    exact hearlier (by omega) k' hk' hother'

variable {a : Arrival} {stops : List Arrival}
variable (hstops : Explored Arrival.place (lapFrom n A) (lapFrom n A a) stops)
variable (ha : a.place ≤ size) (hinside : ∀ c ∈ stops, c.place ≤ size)
include hstops ha hinside

omit hT hA in
/-- A stop of a loop was reached by a lap from where the loop began, or from a stop further back. -/
theorem exists_source {c : Arrival} (hc : c ∈ stops) :
    ∃ e, e.place ≤ size ∧ c ∈ lapFrom n A e ∧ (e = a ∨ e.place ≠ c.place) ∧
      ∀ b ∈ lapFrom n A e, ∃ d ∈ stops, d.place = b.place := by
  rcases hstops.origin c hc with hinit | ⟨e, he, hne, hstep⟩
  · exact ⟨a, ha, hinit, .inl rfl, hstops.start⟩
  · exact ⟨e, hinside e he, hstep, .inr hne, hstops.onward e he⟩

/-- From every stop of a loop a further lap leads to a stop, if not by itself then by a crossing. -/
theorem exists_stop_behind {c : Arrival} (hc : c ∈ stops) {l : List (Nat × Nat)} {q : Nat}
    (ht : T c.place l q) (hallows : a.Allows l) (hq : q = a.place → n ∉ a.choices) :
    ∃ d ∈ stops, d.place = q := by
  have hplace := hinside c hc
  by_cases hagain : c.Allows l
  · by_cases hback : q = c.place
    · exact ⟨c, hc, hback.symm⟩
    · obtain ⟨b, hb, rfl⟩ := exists_lapFrom hT hA hplace ht hagain fun h => absurd h hback
      exact hstops.onward c hc b hb
  · obtain ⟨e, he, hstep, hsource, hbehind⟩ := exists_source hstops ha hinside hc
    have hearlier : e.place = c.place → e.Allows l := by
      rcases hsource with rfl | hne
      · exact fun _ => hallows
      · exact fun heq => absurd heq hne
    obtain ⟨l', ht', hallows'⟩ := exists_crossing hT hA he hstep ht hearlier hagain
    have hback : q = e.place → n ∉ e.choices := by
      rcases hsource with rfl | hne
      · exact hq
      · obtain ⟨_, hlap⟩ := leads_lapFrom hT hA he hstep
        have hforward := (hT.bounds ht hplace).1
        obtain ⟨l₀, -, hl₀⟩ := hlap.route
        have hforward' := (hT.bounds hl₀ he).1
        omega
    obtain ⟨b, hb, rfl⟩ := exists_lapFrom hT hA he ht' hallows' hback
    exact hbehind b hb

/-- All laps lead to stops. -/
theorem exists_stop_of_laps {c : Arrival} (hc : c ∈ stops) {l : List (Nat × Nat)} {q : Nat}
    (h : Laps n T c.place l q) (hallows : a.Allows l) : ∃ d ∈ stops, d.place = q := by
  generalize hp : c.place = p at h
  induction h generalizing c with
  | nil p => exact ⟨c, hc, hp⟩
  | @cons p m q l l' ht _ ih =>
    subst hp
    obtain ⟨d, hd, hplace⟩ := exists_stop_behind hT hA hstops ha hinside hc ht
      ((Arrival.allows_append.mp hallows).1)
      (fun hm hn => hallows n hn (by rw [← hm]; simp))
    exact ih hd (fun k hk hmem => hallows k hk (by simp [hmem])) hplace

end Loop

theorem Explores.loopPlus (hT : Lawful size (n + 1) hi T) (hn : n < hi) (hA : Explores size T A)
    {greedy : Bool} {fuel width : Nat} (hwidth : ∀ a, a.place ≤ size → (A a).length ≤ width)
    (hfuel : width + (size + 1) * (width + 1) ≤ fuel) :
    Explores size (loop n T) (loopPlus greedy n fuel A) := by
  have hloop := hT.loop hn
  have hinside : ∀ a : Arrival, a.place ≤ size → ∀ b ∈ lapFrom n A a, b.place ≤ size := by
    intro a ha b hb
    obtain ⟨c, hc, -, rfl⟩ := mem_lapFrom.mp hb
    exact Explores.inside hT hA ha c hc
  have hfew : ∀ a : Arrival, a.place ≤ size → (lapFrom n A a).length ≤ width := fun a ha =>
    Nat.le_trans (List.length_filterMap_le _ _) (hwidth a ha)
  constructor
  · intro a ha
    suffices h : ∀ b ∈ Regex.loopPlus greedy n fuel A a,
        b.place ≤ size ∧ a.place ≤ b.place ∧ ∃ l, Leads (loop n T) a b l from
      fun b hb => (h b hb).2.2
    refine walkFrom_forall ?_ ?_
    · rintro b ⟨hb, hab, l, hl⟩ c hc
      have hc' := hinside b hb c hc
      obtain ⟨l', hl'⟩ := leads_lapFrom hT hA hb hc
      have hbounds := hloop.bounds (loop_of_lap hl'.route) hb
      have hboth := hl.trans hl' hab hbounds.1.1 fun x hx => (hbounds.2 x hx).1
      refine ⟨hc', by omega, l ++ l', ⟨?_, ?_⟩, hboth.allowed, hboth.made, hboth.kept⟩
      · exact laps_lap hl.route.1 hl'.route
      · simp [hl.route.2]
    · intro b hb
      obtain ⟨l, hl⟩ := leads_lapFrom hT hA ha hb
      have hroute := loop_of_lap hl.route
      exact ⟨hinside a ha b hb, (hloop.bounds hroute ha).1.1, l, hroute, hl.allowed, hl.made,
        hl.kept⟩
  · rintro a l q ha ⟨hlaps, hne⟩ hallows
    have hbelow : ∀ b : Arrival, b.place ≤ size → b.place < size + 1 :=
      fun b hb => Nat.lt_succ_of_le hb
    have hstops : Explored Arrival.place (lapFrom n A) (lapFrom n A a)
        (Regex.loopPlus greedy n fuel A a) :=
      walkFrom_explored greedy hbelow (fun b hb => ⟨hfew b hb, hinside b hb⟩) (hinside a ha)
        (hfew a ha) hfuel
    have hstop : ∀ c ∈ Regex.loopPlus greedy n fuel A a, c.place ≤ size :=
      walkFrom_forall (fun b hb => hinside b hb) (hinside a ha)
    cases hlaps with
    | nil => exact absurd rfl hne
    | @cons p m q l l' ht hrest =>
      have hfirst : a.Allows l := (Arrival.allows_append.mp hallows).1
      have hlater : a.Allows l' := fun k hk hmem => hallows k hk (by simp [hmem])
      obtain ⟨b, hb, hplace⟩ := exists_lapFrom hT hA ha ht hfirst
        fun hm hmade => hallows n hmade (by rw [← hm]; simp)
      obtain ⟨c, hc, hplace'⟩ := hstops.start b hb
      rw [← hplace, ← hplace'] at hrest
      exact exists_stop_of_laps hT hA hstops ha hstop hc hrest hlater

theorem Explores.loopStar (hT : Lawful size (n + 2) hi T) (hn : n + 1 < hi) (hA : Explores size T A)
    {greedy : Bool} {fuel width : Nat} (hwidth : ∀ a, a.place ≤ size → (A a).length ≤ width)
    (hfuel : width + (size + 1) * (width + 1) ≤ fuel) :
    Explores size (Route.choice n (Route.either Route.skip (loop (n + 1) T)))
      (loopStar greedy n fuel A) :=
  choose (Lawful.skip.either (hT.loop hn) (Nat.le_refl (n + 1)) (Nat.le_of_lt hn)).fresh
    (withStop greedy (loopPlus hT hn hA hwidth hfuel))

end Backtrack.Regex
