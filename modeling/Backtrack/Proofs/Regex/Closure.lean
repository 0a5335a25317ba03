import Backtrack.Proofs.Regex.Preference
import Backtrack.Proofs.Regex.Walking

/-!
# Where a walk gets to

A walk goes on from every place that it stops at: whatever a step leads to from there has the key of
a stop. A stop other than those where the walk began was reached by a step from another one, with
another key. For this the walk needs fuel for its tasks, which the number of keys bounds.

This module does NOT say in which order the stops come.
-/

namespace Backtrack.Regex

variable {α : Type} {key : α → Nat} {step : α → List α} {init : List α}

structure Explored (key : α → Nat) (step : α → List α) (init stops : List α) : Prop where
  start : ∀ a ∈ init, ∃ c ∈ stops, key c = key a
  onward : ∀ c ∈ stops, ∀ d ∈ step c, ∃ e ∈ stops, key e = key d
  origin : ∀ c ∈ stops, c ∈ init ∨ ∃ e ∈ stops, key e ≠ key c ∧ c ∈ step e

/-- A walk on its way: `reached` are the stops, made or still to be made, and `visits` what is still
to be visited. -/
structure Exploring (key : α → Nat) (step : α → List α) (init : List α)
    (seen : Std.HashSet Nat) (reached visits : α → Prop) : Prop where
  seen_iff : ∀ k, seen.contains k = true ↔ ∃ c, reached c ∧ key c = k
  start : ∀ a ∈ init, (∃ c, reached c ∧ key c = key a) ∨ visits a
  onward : ∀ c, reached c → ∀ d ∈ step c, (∃ e, reached e ∧ key e = key d) ∨ visits d
  origin : ∀ c, reached c → c ∈ init ∨ ∃ e, reached e ∧ key e ≠ key c ∧ c ∈ step e
  source : ∀ b, visits b → b ∈ init ∨ ∃ e, reached e ∧ b ∈ step e

namespace Exploring

variable {seen : Std.HashSet Nat} {reached reached' visits visits' : α → Prop} {a : α}

theorem congr (h : Exploring key step init seen reached visits) (hr : ∀ c, reached' c ↔ reached c)
    (hv : ∀ b, visits' b ↔ visits b) : Exploring key step init seen reached' visits' := by
  have hreached : reached' = reached := funext fun c => propext (hr c)
  have hvisits : visits' = visits := funext fun b => propext (hv b)
  rw [hreached, hvisits]
  exact h

/-- A key that was seen is not visited again. -/
theorem skip (h : Exploring key step init seen reached visits)
    (hseen : seen.contains (key a) = true)
    (hv : ∀ b, visits b ↔ b = a ∨ visits' b) : Exploring key step init seen reached visits' := by
  have hdone : ∀ b, visits b → (∃ c, reached c ∧ key c = key b) ∨ visits' b := by
    intro b hb
    rcases (hv b).mp hb with rfl | hb
    · exact .inl ((h.seen_iff _).mp hseen)
    · exact .inr hb
  refine ⟨h.seen_iff, ?_, ?_, h.origin, fun b hb => h.source b ((hv b).mpr (.inr hb))⟩
  · intro b hb
    rcases h.start b hb with hreached | hvisit
    · exact .inl hreached
    · exact hdone b hvisit
  · intro c hc d hd
    rcases h.onward c hc d hd with hreached | hvisit
    · exact .inl hreached
    · exact hdone d hvisit

/-- A new key makes a stop, and its steps are to be visited. -/
theorem visit (h : Exploring key step init seen reached visits)
    (hseen : ¬ seen.contains (key a) = true) (hv : ∀ b, visits b ↔ b = a ∨ visits' b) :
    Exploring key step init (seen.insert (key a)) (fun c => c = a ∨ reached c)
      (fun b => b ∈ step a ∨ visits' b) := by
  have hkeep : ∀ k, (∃ c, reached c ∧ key c = k) → ∃ c, (c = a ∨ reached c) ∧ key c = k := by
    rintro k ⟨c, hc, hk⟩
    exact ⟨c, .inr hc, hk⟩
  have hdone : ∀ b, visits b →
      (∃ c, (c = a ∨ reached c) ∧ key c = key b) ∨ b ∈ step a ∨ visits' b := by
    intro b hb
    rcases (hv b).mp hb with rfl | hb
    · exact .inl ⟨b, .inl rfl, rfl⟩
    · exact .inr (.inr hb)
  constructor
  · intro k
    rw [Std.HashSet.contains_insert, Bool.or_eq_true, beq_iff_eq, h.seen_iff]
    constructor
    · rintro (rfl | hk)
      · exact ⟨a, .inl rfl, rfl⟩
      · exact hkeep k hk
    · rintro ⟨c, rfl | hc, hk⟩
      · exact .inl hk
      · exact .inr ⟨c, hc, hk⟩
  · intro b hb
    rcases h.start b hb with hreached | hvisit
    · exact .inl (hkeep _ hreached)
    · exact hdone b hvisit
  · rintro c (rfl | hc) d hd
    · exact .inr (.inl hd)
    · rcases h.onward c hc d hd with hreached | hvisit
      · exact .inl (hkeep _ hreached)
      · exact hdone d hvisit
  · rintro c (rfl | hc)
    · rcases h.source c ((hv c).mpr (.inl rfl)) with hinit | ⟨e, he, hstep⟩
      · exact .inl hinit
      · refine .inr ⟨e, .inr he, ?_, hstep⟩
        intro hkey
        exact hseen ((h.seen_iff _).mpr ⟨e, he, hkey⟩)
    · rcases h.origin c hc with hinit | ⟨e, he, hrest⟩
      · exact .inl hinit
      · exact .inr ⟨e, .inr he, hrest⟩
  · rintro b (hb | hb)
    · exact .inr ⟨a, .inl rfl, hb⟩
    · rcases h.source b ((hv b).mpr (.inr hb)) with hinit | ⟨e, he, hstep⟩
      · exact .inl hinit
      · exact .inr ⟨e, .inr he, hstep⟩

theorem explored (h : Exploring key step init seen reached visits) {stops : List α}
    (hr : ∀ c, reached c ↔ c ∈ stops) (hv : ∀ b, ¬ visits b) : Explored key step init stops := by
  constructor
  · intro a ha
    rcases h.start a ha with ⟨c, hc, hkey⟩ | hvisit
    · exact ⟨c, (hr c).mp hc, hkey⟩
    · exact absurd hvisit (hv a)
  · intro c hc d hd
    rcases h.onward c ((hr c).mpr hc) d hd with ⟨e, he, hkey⟩ | hvisit
    · exact ⟨e, (hr e).mp he, hkey⟩
    · exact absurd hvisit (hv d)
  · intro c hc
    rcases h.origin c ((hr c).mpr hc) with hinit | ⟨e, he, hkey, hstep⟩
    · exact .inl hinit
    · exact .inr ⟨e, (hr e).mp he, hkey, hstep⟩

end Exploring

section Walk

variable {P : α → Prop} {limit width : Nat} (greedy : Bool)
variable (below : ∀ a, P a → key a < limit)
variable (hstep : ∀ a, P a → (step a).length ≤ width ∧ ∀ b ∈ step a, P b)
include below hstep

theorem walk_explored (fuel : Nat) (seen : Std.HashSet Nat) (stops : List α) (tasks : List (Task α))
    (hfuel : tasks.length + (unseen limit seen).card * (width + 1) ≤ fuel)
    (htasks : ∀ t ∈ tasks, P t.place)
    (h : Exploring key step init seen (fun c => c ∈ stops ∨ Task.stop c ∈ tasks)
      (fun b => Task.visit b ∈ tasks)) :
    Explored key step init (walk key greedy step fuel seen stops tasks) := by
  induction fuel generalizing seen stops tasks with
  | zero =>
    obtain rfl : tasks = [] := List.eq_nil_of_length_eq_zero (by omega)
    rw [walk_nil]
    exact h.explored (by simp) (by simp)
  | succ fuel ih =>
    cases tasks with
    | nil =>
      rw [walk_nil]
      exact h.explored (by simp) (by simp)
    | cons t rest =>
      obtain ⟨hplace, hrest⟩ := List.forall_mem_cons.mp htasks
      rw [List.length_cons] at hfuel
      cases t with
      | stop a =>
        rw [walk]
        refine ih seen (a :: stops) rest (by omega) hrest (h.congr ?_ ?_)
        · intro c
          simp only [List.mem_cons, Task.stop.injEq]
          rw [or_assoc, or_left_comm]
        · intro b
          simp
      | visit a =>
        change P a at hplace
        obtain ⟨hlength, hvalid⟩ := hstep a hplace
        rw [walk]
        have hvisits : ∀ b, Task.visit b ∈ Task.visit a :: rest ↔ b = a ∨ Task.visit b ∈ rest := by
          intro b
          simp
        by_cases hvisited : seen.contains (key a) = true
        · rw [if_pos hvisited]
          refine ih seen stops rest (by omega) hrest ((h.skip hvisited hvisits).congr ?_ ?_)
          · intro c
            simp
          · exact fun _ => Iff.rfl
        rw [if_neg hvisited]
        have hcard := card_unseen_insert (below a hplace) hvisited
        have hnext := h.visit hvisited hvisits
        have honward : ∀ t ∈ (step a).map Task.visit, P t.place := by
          intro t ht
          obtain ⟨b, hb, rfl⟩ := List.mem_map.mp ht
          exact hvalid b hb
        -- One key less is unseen, which pays for the stop and the visits that it adds.
        have hpay : (unseen limit seen).card * (width + 1) =
            (unseen limit (seen.insert (key a))).card * (width + 1) + (width + 1) := by
          rw [← hcard, Nat.succ_mul]
        cases greedy with
        | true =>
          refine ih _ stops _ ?_ ?_ (hnext.congr ?_ ?_)
          · rw [List.length_append, List.length_map, List.length_cons]
            omega
          · exact List.forall_mem_append.mpr ⟨honward, List.forall_mem_cons.mpr ⟨hplace, hrest⟩⟩
          · intro c
            simp only [List.mem_append, List.mem_map, List.mem_cons, Task.stop.injEq, reduceCtorEq,
              and_false, exists_false, false_or]
            rw [or_left_comm]
          · intro b
            simp
        | false =>
          refine ih _ (a :: stops) _ ?_ ?_ (hnext.congr ?_ ?_)
          · rw [List.length_append, List.length_map]
            omega
          · exact List.forall_mem_append.mpr ⟨honward, hrest⟩
          · intro c
            simp only [List.mem_append, List.mem_map, List.mem_cons, reduceCtorEq, and_false,
              exists_false, false_or, or_assoc]
          · intro b
            simp

/-- A walk with fuel for all keys comes to its end. -/
theorem walkFrom_explored {fuel : Nat} (hinit : ∀ a ∈ init, P a) (hfew : init.length ≤ width)
    (hfuel : width + limit * (width + 1) ≤ fuel) :
    Explored key step init (walkFrom key greedy step fuel init) := by
  have hunseen : (unseen limit {}).card ≤ limit := card_unseen_le
  refine walk_explored greedy below hstep fuel {} [] (init.map .visit) ?_ ?_ ?_
  · rw [List.length_map]
    exact Nat.le_trans (Nat.add_le_add hfew (Nat.mul_le_mul_right _ hunseen)) hfuel
  · intro t ht
    obtain ⟨a, ha, rfl⟩ := List.mem_map.mp ht
    exact hinit a ha
  · constructor
    · simp
    · intro a ha
      exact .inr (List.mem_map.mpr ⟨a, ha, rfl⟩)
    · simp
    · simp
    · intro b hb
      obtain ⟨a, ha, heq⟩ := List.mem_map.mp hb
      exact .inl (Task.visit.inj heq ▸ ha)

end Walk

theorem exists_firsts {as : List α} {a : α} (h : a ∈ as) : ∃ b ∈ firsts key as, key b = key a := by
  let found (b : α) : Option Unit := if key b = key a then some () else none
  have hfound : (firsts key as).findSome? found = as.findSome? found := by
    apply findSome?_firsts
    intro b c hkey
    dsimp only [found]
    rw [hkey]
  cases hsome : (firsts key as).findSome? found with
  | none =>
    rw [hsome] at hfound
    have ha := List.findSome?_eq_none_iff.mp hfound.symm a h
    dsimp only [found] at ha
    rw [if_pos rfl] at ha
    cases ha
  | some u =>
    obtain ⟨b, hb, hkey⟩ := List.exists_of_findSome?_eq_some hsome
    dsimp only [found] at hkey
    split at hkey
    · rename_i heq
      exact ⟨b, hb, heq⟩
    · cases hkey

theorem mem_firsts_id {ps : List Nat} {p : Nat} (h : p ∈ ps) : p ∈ firsts id ps := by
  have hfirst : ∃ q ∈ firsts id ps, id q = id p := exists_firsts h
  obtain ⟨q, hq, rfl⟩ := hfirst
  exact hq

section Numbered

variable {step : Nat → α → List α} {n i : Nat} {a : α}

structure Climbed (key : α → Nat) (step : Nat → α → List α) (n i : Nat) (a : α)
    (stops : List (Nat × α)) : Prop where
  start : ∃ e, (0, e) ∈ stops ∧ key e = key a
  onward : ∀ {d c}, (d, c) ∈ stops → d < n → ∀ b ∈ step (i + d) c,
    ∃ e, (d + 1, e) ∈ stops ∧ key e = key b

theorem atMost_climbed {P : Nat → α → Prop} {width fuel : Nat} (greedy : Bool)
    (below : ∀ d a, P d a → key a < width)
    (hstep : ∀ d a, d < n → P d a →
      (step (i + d) a).length ≤ width ∧ ∀ b ∈ step (i + d) a, P (d + 1) b)
    (ha : P 0 a) (hfuel : width + (n + 1) * width * (width + 1) ≤ fuel) :
    ∃ stops, Climbed key step n i a stops ∧ (∀ s ∈ stops, P s.1 s.2) ∧
      atMost key width fuel greedy step n i a = firsts key (stops.map Prod.snd) := by
  have hwidth : 0 < width := Nat.zero_lt_of_lt (below 0 a ha)
  let onward : Nat × α → List (Nat × α) := fun s =>
    if s.1 < n then (step (i + s.1) s.2).map (s.1 + 1, ·) else []
  let numbered : Nat × α → Nat := fun s => s.1 * width + key s.2
  have hbelow : ∀ s : Nat × α, s.1 ≤ n ∧ P s.1 s.2 → numbered s < (n + 1) * width := by
    intro s hs
    have hmul : s.1 * width ≤ n * width := Nat.mul_le_mul_right _ hs.1
    have hkey := below s.1 s.2 hs.2
    rw [Nat.succ_mul]
    dsimp only [numbered]
    omega
  have honward : ∀ s : Nat × α, s.1 ≤ n ∧ P s.1 s.2 →
      (onward s).length ≤ width ∧ ∀ t ∈ onward s, t.1 ≤ n ∧ P t.1 t.2 := by
    intro s hs
    dsimp only [onward]
    split
    · rename_i hdone
      obtain ⟨hfew, hnext⟩ := hstep s.1 s.2 hdone hs.2
      refine ⟨by rw [List.length_map]; exact hfew, ?_⟩
      intro t ht
      obtain ⟨c, hc, rfl⟩ := List.mem_map.mp ht
      exact ⟨hdone, hnext c hc⟩
    · simp
  have hinit : ∀ s ∈ [(0, a)], s.1 ≤ n ∧ P s.1 s.2 := by
    intro s hs
    rw [List.mem_singleton.mp hs]
    exact ⟨Nat.zero_le n, ha⟩
  have hstops : Explored numbered onward [(0, a)] (walkFrom numbered greedy onward fuel [(0, a)]) :=
    walkFrom_explored greedy hbelow honward hinit hwidth hfuel
  have hvalid : ∀ s ∈ walkFrom numbered greedy onward fuel [(0, a)], s.1 ≤ n ∧ P s.1 s.2 :=
    walkFrom_forall (fun s hs => (honward s hs).2) hinit
  have hmatch : ∀ s t : Nat × α, s.1 ≤ n ∧ P s.1 s.2 → t.1 ≤ n ∧ P t.1 t.2 →
      numbered s = numbered t → s.1 = t.1 ∧ key s.2 = key t.2 := by
    intro s t hs ht h
    exact (mul_add_eq_iff (below s.1 s.2 hs.2) (below t.1 t.2 ht.2)).mp h
  refine ⟨walkFrom numbered greedy onward fuel [(0, a)], ⟨?_, ?_⟩, fun s hs => (hvalid s hs).2,
    rfl⟩
  · obtain ⟨⟨d, e⟩, he, hkey⟩ := hstops.start (0, a) List.mem_cons_self
    obtain ⟨rfl, hkey⟩ := hmatch _ _ (hvalid _ he) (hinit _ List.mem_cons_self) hkey
    exact ⟨e, he, hkey⟩
  · intro d c hc hd b hb
    have hnext : (d + 1, b) ∈ onward (d, c) := by
      dsimp only [onward]
      rw [if_pos hd]
      exact List.mem_map.mpr ⟨b, hb, rfl⟩
    obtain ⟨⟨d', e⟩, he, hkey⟩ := hstops.onward (d, c) hc _ hnext
    obtain ⟨rfl, hkey⟩ := hmatch _ _ (hvalid _ he) ((honward _ (hvalid _ hc)).2 _ hnext) hkey
    exact ⟨e, he, hkey⟩

end Numbered
end Backtrack.Regex
