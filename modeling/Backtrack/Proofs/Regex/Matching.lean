import Backtrack.Proofs.Text.Utf8
import Backtrack.Regex.Match

/-!
# What a match is

`Regex.Matches` says which stretches of a text a regular expression describes, without any order of
preference. Every place that the matcher lists as the end of a match is one in this sense, also
inside repetitions whose body may match nothing. It follows that a match never leaves the text.

This module does NOT show that the matcher finds every match, nor which one it prefers.
-/

namespace Backtrack

/-- A number of steps of a relation, one after another. -/
inductive Steps {α : Type} (R : α → α → Prop) : Nat → α → α → Prop where
  | zero (a : α) : Steps R 0 a a
  | succ {n : Nat} {a b c : α} : Steps R n a b → R b c → Steps R (n + 1) a c

namespace Steps

variable {α : Type} {R : α → α → Prop} {m n : Nat} {a b c : α}

theorem single (h : R a b) : Steps R 1 a b := .succ (.zero a) h

theorem trans (hab : Steps R m a b) (hbc : Steps R n b c) : Steps R (m + n) a c := by
  induction hbc with
  | zero => exact hab
  | succ _ h ih => exact .succ (ih hab) h

theorem preserves {P : α → Prop} (hstep : ∀ a b, P a → R a b → P b) (h : Steps R n a b)
    (ha : P a) : P b := by
  induction h with
  | zero => exact ha
  | succ _ h ih => exact hstep _ _ (ih ha) h

/-- Steps that go forward and stay below a limit lead forward and stay below it. -/
theorem bounds {R : Nat → Nat → Prop} {a b limit : Nat}
    (hstep : ∀ c d, R c d → c ≤ limit → c ≤ d ∧ d ≤ limit) (h : Steps R n a b) (ha : a ≤ limit) :
    a ≤ b ∧ b ≤ limit := by
  refine h.preserves (P := fun c => a ≤ c ∧ c ≤ limit) ?_ ⟨Nat.le_refl a, ha⟩
  intro c d hc hcd
  have hd := hstep c d hcd hc.2
  omega

/-- One step or more that go forward and stay below a limit do not end where they started. -/
theorem lt {R : Nat → Nat → Prop} {a b limit : Nat}
    (hstep : ∀ c d, R c d → c ≤ limit → c < d ∧ d ≤ limit) (h : Steps R n a b) (hn : 0 < n)
    (ha : a ≤ limit) : a < b := by
  cases h with
  | zero => omega
  | @succ n _ c _ h hlast =>
    have hc := h.bounds (fun d e hde hd => ⟨Nat.le_of_lt (hstep d e hde hd).1,
      (hstep d e hde hd).2⟩) ha
    have hb := hstep c b hlast hc.2
    omega

end Steps

namespace Regex

section Lists

variable {α : Type} {key : α → Nat}

theorem mem_firsts {as : List α} {a : α} (h : a ∈ firsts key as) : a ∈ as := by
  unfold firsts at h
  rw [List.mem_reverse] at h
  suffices hkept : ∀ (as : List α) (seen : Std.HashSet Nat) (kept : List α),
      a ∈ (as.foldl (fun ((seen, kept) : Std.HashSet Nat × List α) a =>
        if seen.contains (key a) then (seen, kept) else (seen.insert (key a), a :: kept))
        (seen, kept)).2 → a ∈ kept ∨ a ∈ as by
    rcases hkept as {} [] h with h | h
    · cases h
    · exact h
  intro as
  induction as with
  | nil => exact fun _ _ h => .inl h
  | cons b as ih =>
    intro seen kept h
    rw [List.foldl_cons] at h
    dsimp only at h
    split at h
    · rcases ih _ _ h with h | h
      · exact .inl h
      · exact .inr (List.mem_cons_of_mem b h)
    · rcases ih _ _ h with h | h
      · rcases List.mem_cons.mp h with rfl | h
        · exact .inr List.mem_cons_self
        · exact .inl h
      · exact .inr (List.mem_cons_of_mem b h)

theorem mem_continueFrom {as : List α} {step : α → List α} {b : α}
    (h : b ∈ continueFrom key as step) : ∃ a ∈ as, b ∈ step a :=
  List.mem_flatMap.mp (mem_firsts h)

theorem mem_withStop {greedy : Bool} {a b : α} {more : List α}
    (h : b ∈ withStop key greedy a more) : b = a ∨ b ∈ more := by
  have h := mem_firsts h
  split at h
  · rcases List.mem_append.mp h with h | h
    · exact .inr h
    · exact .inl (List.mem_singleton.mp h)
  · exact List.mem_cons.mp h

def Task.place : Task α → α
  | .visit a | .stop a => a

/-- What every task of a walk satisfies and every step keeps, every stop of the walk satisfies. -/
theorem walk_forall {P : α → Prop} {greedy : Bool} {step : α → List α}
    (hstep : ∀ a, P a → ∀ b ∈ step a, P b) (fuel : Nat) (seen : Std.HashSet Nat)
    (stops : List α) (tasks : List (Task α)) (hstops : ∀ a ∈ stops, P a)
    (htasks : ∀ t ∈ tasks, P t.place) :
    ∀ b ∈ walk key greedy step fuel seen stops tasks, P b := by
  have hvisit : ∀ a, P a → ∀ t ∈ (step a).map Task.visit, P t.place := by
    intro a ha t ht
    obtain ⟨b, hb, rfl⟩ := List.mem_map.mp ht
    exact hstep a ha b hb
  fun_induction walk key greedy step fuel seen stops tasks with
  | case1 seen stops tasks => simpa using hstops
  | case2 fuel seen stops => simpa using hstops
  | case3 seen stops fuel a rest ih =>
    obtain ⟨ha, hrest⟩ := List.forall_mem_cons.mp htasks
    exact ih (List.forall_mem_cons.mpr ⟨ha, hstops⟩) hrest
  | case4 seen stops fuel a rest hseen ih =>
    exact ih hstops (List.forall_mem_cons.mp htasks).2
  | case5 seen₀ stops fuel a rest hseen seen onward hgreedy ih =>
    -- A greedy walk comes back to stop here once it has been everywhere further on.
    obtain ⟨ha, hrest⟩ := List.forall_mem_cons.mp htasks
    have hstop : ∀ t ∈ .stop a :: rest, P t.place := List.forall_mem_cons.mpr ⟨ha, hrest⟩
    exact ih hstops (List.forall_mem_append.mpr ⟨hvisit a ha, hstop⟩)
  | case6 seen₀ stops fuel a rest hseen seen onward hgreedy ih =>
    obtain ⟨ha, hrest⟩ := List.forall_mem_cons.mp htasks
    refine ih (List.forall_mem_cons.mpr ⟨ha, hstops⟩) ?_
    exact List.forall_mem_append.mpr ⟨hvisit a ha, hrest⟩

theorem walkFrom_forall {P : α → Prop} {greedy : Bool} {step : α → List α} {fuel : Nat}
    {places : List α} (hstep : ∀ a, P a → ∀ b ∈ step a, P b) (hplaces : ∀ a ∈ places, P a) :
    ∀ b ∈ walkFrom key greedy step fuel places, P b := by
  refine walk_forall hstep fuel {} [] _ (by simp) ?_
  intro t ht
  obtain ⟨a, ha, rfl⟩ := List.mem_map.mp ht
  exact hplaces a ha

variable {R : α → α → Prop}

theorem mem_exactly {step : Nat → α → List α} (hstep : ∀ i a, ∀ b ∈ step i a, R a b) {n : Nat} :
    ∀ {i : Nat} {as : List α} {b : α}, b ∈ exactly key step n i as → ∃ a ∈ as, Steps R n a b := by
  induction n with
  | zero => exact fun h => ⟨_, h, .zero _⟩
  | succ n ih =>
    intro i as b h
    obtain ⟨c, hc, hcb⟩ := ih h
    obtain ⟨a, ha, hac⟩ := mem_continueFrom hc
    have h := (Steps.single (hstep i a c hac)).trans hcb
    rw [Nat.add_comm] at h
    exact ⟨a, ha, h⟩

theorem mem_continueFrom_exactly {step : Nat → α → List α}
    (hstep : ∀ i a, ∀ b ∈ step i a, R a b) {onward : α → List α} {n i : Nat} {a b : α}
    (h : b ∈ continueFrom key (exactly key step n i [a]) onward) :
    ∃ c, Steps R n a c ∧ b ∈ onward c := by
  obtain ⟨c, hc, hb⟩ := mem_continueFrom h
  obtain ⟨a', ha', hsteps⟩ := mem_exactly hstep hc
  rw [List.mem_singleton.mp ha'] at hsteps
  exact ⟨c, hsteps, hb⟩

theorem mem_atMost {step : Nat → α → List α} (hstep : ∀ i a, ∀ b ∈ step i a, R a b)
    {width fuel n i : Nat} {greedy : Bool} {a b : α}
    (h : b ∈ atMost key width fuel greedy step n i a) : ∃ k ≤ n, Steps R k a b := by
  obtain ⟨⟨k, c⟩, hc, rfl⟩ := List.mem_map.mp (mem_firsts h)
  refine ⟨k, walkFrom_forall (P := fun s : Nat × α => s.1 ≤ n ∧ Steps R s.1 a s.2) ?_ ?_ _ hc⟩
  · rintro ⟨done, c⟩ ⟨_, hsteps⟩ d hd
    dsimp only at hd
    split at hd
    · rename_i hlt
      obtain ⟨e, he, rfl⟩ := List.mem_map.mp hd
      exact ⟨hlt, .succ hsteps (hstep _ _ _ he)⟩
    · cases hd
  · intro s hs
    rw [List.mem_singleton.mp hs]
    exact ⟨Nat.zero_le n, .zero a⟩

theorem mem_walkFrom {step : α → List α} (hstep : ∀ a, ∀ b ∈ step a, R a b) {greedy : Bool}
    {fuel : Nat} {a b : α} (h : b ∈ walkFrom key greedy step fuel [a]) : ∃ n, Steps R n a b := by
  refine walkFrom_forall (P := fun c => ∃ n, Steps R n a c) ?_ ?_ b h
  · rintro c ⟨n, hn⟩ d hd
    exact ⟨n + 1, .succ hn (hstep c d hd)⟩
  · intro c hc
    rw [List.mem_singleton.mp hc]
    exact ⟨0, .zero a⟩

theorem mem_walkFrom_step {step : α → List α} (hstep : ∀ a, ∀ b ∈ step a, R a b) {greedy : Bool}
    {fuel : Nat} {a b : α} (h : b ∈ walkFrom key greedy step fuel (step a)) :
    ∃ n, 0 < n ∧ Steps R n a b := by
  refine walkFrom_forall (P := fun c => ∃ n, 0 < n ∧ Steps R n a c) ?_ ?_ b h
  · rintro c ⟨n, _, hn⟩ d hd
    exact ⟨n + 1, n.succ_pos, .succ hn (hstep c d hd)⟩
  · intro c hc
    exact ⟨1, Nat.one_pos, .single (hstep a c hc)⟩

end Lists

section Arrivals

variable {R : Nat → Nat → Prop}

theorem choose?_place {a b : Arrival} {number : Nat} (h : a.choose? number = some b) :
    b.place = a.place := by
  unfold Arrival.choose? at h
  split at h
  · cases h
  · rw [← Option.some.inj h]

theorem mem_choose {a b : Arrival} {number : Nat} {next : Arrival → List Arrival}
    (h : b ∈ a.choose number next) : ∃ c, c.place = a.place ∧ b ∈ next c := by
  unfold Arrival.choose at h
  split at h
  · rename_i c hc
    exact ⟨c, choose?_place hc, h⟩
  · cases h

def OnPlaces (R : Nat → Nat → Prop) (a b : Arrival) : Prop := R a.place b.place

theorem steps_onPlaces {n : Nat} {a b : Arrival} (h : Steps (OnPlaces R) n a b) :
    Steps R n a.place b.place := by
  induction h with
  | zero => exact .zero _
  | succ _ h ih => exact .succ ih h

theorem mem_loopPlus {greedy : Bool} {number fuel : Nat} {body : Arrival → List Arrival}
    (hbody : ∀ a, ∀ b ∈ body a, R a.place b.place) {a b : Arrival}
    (h : b ∈ loopPlus greedy number fuel body a) :
    ∃ n, 0 < n ∧ Steps R n a.place b.place := by
  have hstep : ∀ c, ∀ d ∈ (body c).filterMap (·.choose? number), OnPlaces R c d := by
    intro c d hd
    obtain ⟨e, he, hed⟩ := List.mem_filterMap.mp hd
    rw [OnPlaces, choose?_place hed]
    exact hbody c e he
  obtain ⟨n, hn, hsteps⟩ := mem_walkFrom_step hstep h
  exact ⟨n, hn, steps_onPlaces hsteps⟩

theorem mem_loopStar {greedy : Bool} {number fuel : Nat} {body : Arrival → List Arrival}
    (hbody : ∀ a, ∀ b ∈ body a, R a.place b.place) {a b : Arrival}
    (h : b ∈ loopStar greedy number fuel body a) : ∃ n, Steps R n a.place b.place := by
  obtain ⟨c, hplace, hc⟩ := mem_choose h
  rw [← hplace]
  rcases mem_withStop hc with rfl | hc
  · exact ⟨0, .zero _⟩
  · obtain ⟨n, _, hn⟩ := mem_loopPlus hbody hc
    exact ⟨n, hn⟩

theorem mem_runPlus {greedy : Bool} {number fuel : Nat} {body : Nat → List Nat}
    (hbody : ∀ p, ∀ q ∈ body p, R p q) {a b : Arrival}
    (h : b ∈ runPlus greedy number fuel body a) :
    ∃ n, 0 < n ∧ Steps R n a.place b.place := by
  obtain ⟨q, hq, rfl⟩ := List.mem_map.mp h
  exact mem_walkFrom_step hbody hq

theorem mem_runStar {greedy : Bool} {number fuel : Nat} {body : Nat → List Nat}
    (hbody : ∀ p, ∀ q ∈ body p, R p q) {a b : Arrival}
    (h : b ∈ runStar greedy number fuel body a) : ∃ n, Steps R n a.place b.place := by
  obtain ⟨c, hplace, hc⟩ := mem_choose h
  obtain ⟨q, hq, hb⟩ := List.mem_map.mp hc
  obtain ⟨n, hn⟩ := mem_walkFrom hbody hq
  have hplace' : b.place = q := by
    rw [← hb]
    split
    · rename_i heq
      exact heq.symm
    · rfl
  rw [hplace', ← hplace]
  exact ⟨n, hn⟩

section Loops

variable {nullable greedy : Bool} {number fuel : Nat} {body : Arrival → List Arrival}
variable {step : Nat → List Nat} (hbody : ∀ a, ∀ b ∈ body a, R a.place b.place)
variable (hstep : ∀ p, ∀ q ∈ step p, R p q)
include hbody hstep

theorem mem_ends_star {p q : Nat}
    (h : q ∈ if nullable then (loopStar greedy number fuel body ⟨p, []⟩).map Arrival.place
      else walkFrom id greedy step fuel [p]) : ∃ n, Steps R n p q := by
  split at h
  · obtain ⟨b, hb, rfl⟩ := List.mem_map.mp h
    exact mem_loopStar hbody hb
  · exact mem_walkFrom hstep h

theorem mem_ends_plus {p q : Nat}
    (h : q ∈ if nullable then (loopPlus greedy number fuel body ⟨p, []⟩).map Arrival.place
      else walkFrom id greedy step fuel (step p)) : ∃ n, 0 < n ∧ Steps R n p q := by
  split at h
  · obtain ⟨b, hb, rfl⟩ := List.mem_map.mp h
    exact mem_loopPlus hbody hb
  · exact mem_walkFrom_step hstep h

theorem mem_arrivals_star {number' : Nat} {a b : Arrival}
    (h : b ∈ if nullable then loopStar greedy number fuel body a
      else runStar greedy number' fuel step a) : ∃ n, Steps R n a.place b.place := by
  split at h
  · exact mem_loopStar hbody h
  · exact mem_runStar hstep h

theorem mem_arrivals_plus {number' : Nat} {a b : Arrival}
    (h : b ∈ if nullable then loopPlus greedy number fuel body a
      else runPlus greedy number' fuel step a) : ∃ n, 0 < n ∧ Steps R n a.place b.place := by
  split at h
  · exact mem_loopPlus hbody h
  · exact mem_runPlus hstep h

end Loops

theorem mem_endsBetween {text : Array UInt8} {greedy : Bool} {least most : Nat}
    {step : Nat → List Nat} (hstep : ∀ p, ∀ q ∈ step p, R p q) {p q : Nat}
    (h : q ∈ endsBetween text greedy least most step p) :
    ∃ n, least ≤ n ∧ n ≤ max least most ∧ Steps R n p q := by
  obtain ⟨m, hleast, hq⟩ := mem_continueFrom_exactly (fun _ => hstep) h
  obtain ⟨k, hk, hmore⟩ := mem_atMost (fun _ => hstep) hq
  exact ⟨least + k, by omega, by omega, hleast.trans hmore⟩

theorem mem_arrivalsBetween {text : Array UInt8} {greedy : Bool} {least most : Nat}
    {number : Nat → Nat} {step : Nat → Arrival → List Arrival}
    (hstep : ∀ i a, ∀ b ∈ step i a, R a.place b.place) {a b : Arrival}
    (h : b ∈ arrivalsBetween text greedy least most number step a) :
    ∃ n, least ≤ n ∧ n ≤ max least most ∧ Steps R n a.place b.place := by
  have henter : ∀ {i : Nat} {c d : Arrival},
      d ∈ (if i < most then (c.choose? (number i)).toList else [c]) → d.place = c.place := by
    intro i c d hd
    split at hd
    · exact choose?_place (Option.mem_toList.mp hd)
    · rw [List.mem_singleton.mp hd]
  obtain ⟨c, hleast, hb⟩ := mem_continueFrom_exactly (R := OnPlaces R) hstep h
  obtain ⟨d, hd, hb⟩ := mem_continueFrom hb
  have hstep' : ∀ i e, ∀ f ∈ (step i e).flatMap fun g =>
      if i + 1 < most then (g.choose? (number (i + 1))).toList else [g], OnPlaces R e f := by
    intro i e f hf
    obtain ⟨g, hg, hfg⟩ := List.mem_flatMap.mp hf
    rw [OnPlaces, henter hfg]
    exact hstep i e g hg
  obtain ⟨k, hk, hmore⟩ := mem_atMost hstep' hb
  have hmore := steps_onPlaces hmore
  rw [henter hd] at hmore
  exact ⟨least + k, by omega, by omega, (steps_onPlaces hleast).trans hmore⟩

end Arrivals

/-- The stretch of a text from one place to another is described by a regular expression. The text
begins at `start`, as far as conditions on a place are concerned. -/
def Matches (text : Array UInt8) (start : Nat) : Regex → Nat → Nat → Prop
  | empty, p, q => p = q
  | chars c, p, q =>
    ∃ ch width, Utf8.at? text p = some (ch, width) ∧ c.contains ch.toNat = true ∧ q = p + width
  | check a, p, q => a.holds text start p = true ∧ p = q
  | seq r s, p, q => ∃ m, r.Matches text start p m ∧ s.Matches text start m q
  | alt r s, p, q => r.Matches text start p q ∨ s.Matches text start p q
  | opt _ r, p, q => p = q ∨ r.Matches text start p q
  | star _ r, p, q => ∃ n, Steps (r.Matches text start) n p q
  | plus _ r, p, q => ∃ n, 0 < n ∧ Steps (r.Matches text start) n p q
  | count _ least most r, p, q =>
    ∃ n, least ≤ n ∧ (∀ m ∈ most, n ≤ max least m) ∧ Steps (r.Matches text start) n p q

variable {text : Array UInt8} {start : Nat}

theorem mem_singleton_if {condition : Bool} {α : Type} {a b : α}
    (h : b ∈ if condition then [a] else []) : condition = true ∧ b = a := by
  split at h
  · rename_i hc
    exact ⟨hc, List.mem_singleton.mp h⟩
  · cases h

/-- The matcher lists ends of matches only, also while it remembers choices. -/
structure ListsMatches (text : Array UInt8) (start : Nat) (r : Regex) : Prop where
  ends : ∀ p, ∀ q ∈ r.ends text start p, r.Matches text start p q
  arrivals : ∀ base a, ∀ b ∈ r.arrivals text start base a, r.Matches text start a.place b.place

variable {r s : Regex}

theorem listsMatches_empty : ListsMatches text start .empty := by
  constructor
  · intro p q hq
    exact (List.mem_singleton.mp hq).symm
  · intro base a b hb
    rw [List.mem_singleton.mp hb]
    rfl

theorem listsMatches_chars (c : CharClass) : ListsMatches text start (.chars c) := by
  constructor
  · intro p q hq
    simp only [Regex.ends] at hq
    split at hq
    · obtain ⟨hc, rfl⟩ := mem_singleton_if hq
      exact ⟨_, _, by assumption, hc, rfl⟩
    · cases hq
  · intro base a b hb
    simp only [Regex.arrivals] at hb
    split at hb
    · obtain ⟨hc, rfl⟩ := mem_singleton_if hb
      exact ⟨_, _, by assumption, hc, rfl⟩
    · cases hb

theorem listsMatches_check (c : Assertion) : ListsMatches text start (.check c) := by
  constructor
  · intro p q hq
    obtain ⟨hc, rfl⟩ := mem_singleton_if hq
    exact ⟨hc, rfl⟩
  · intro base a b hb
    obtain ⟨hc, rfl⟩ := mem_singleton_if hb
    exact ⟨hc, rfl⟩

section Parts

variable (hr : ListsMatches text start r)
include hr

theorem ListsMatches.seq (hs : ListsMatches text start s) :
    ListsMatches text start (.seq r s) := by
  constructor
  · intro p q hq
    obtain ⟨m, hm, hq⟩ := mem_continueFrom hq
    exact ⟨m, hr.ends p m hm, hs.ends m q hq⟩
  · intro base a b hb
    obtain ⟨c, hc, hb⟩ := mem_continueFrom hb
    exact ⟨c.place, hr.arrivals _ a c hc, hs.arrivals _ c b hb⟩

theorem ListsMatches.alt (hs : ListsMatches text start s) :
    ListsMatches text start (.alt r s) := by
  constructor
  · intro p q hq
    rcases List.mem_append.mp (mem_firsts hq) with hq | hq
    · exact .inl (hr.ends p q hq)
    · exact .inr (hs.ends p q hq)
  · intro base a b hb
    obtain ⟨c, hplace, hb⟩ := mem_choose hb
    rw [← hplace]
    rcases List.mem_append.mp (mem_firsts hb) with hb | hb
    · exact .inl (hr.arrivals _ c b hb)
    · exact .inr (hs.arrivals _ c b hb)

theorem ListsMatches.opt (greedy : Bool) : ListsMatches text start (.opt greedy r) := by
  constructor
  · intro p q hq
    rcases mem_withStop hq with rfl | hq
    · exact .inl rfl
    · exact .inr (hr.ends p q hq)
  · intro base a b hb
    obtain ⟨c, hplace, hb⟩ := mem_choose hb
    rw [← hplace]
    rcases mem_withStop hb with rfl | hb
    · exact .inl rfl
    · exact .inr (hr.arrivals _ c b hb)

theorem ListsMatches.star (greedy : Bool) : ListsMatches text start (.star greedy r) := by
  constructor
  · intro p q hq
    exact mem_ends_star (hr.arrivals _) hr.ends hq
  · intro base a b hb
    exact mem_arrivals_star (hr.arrivals _) hr.ends hb

theorem ListsMatches.plus (greedy : Bool) : ListsMatches text start (.plus greedy r) := by
  constructor
  · intro p q hq
    exact mem_ends_plus (hr.arrivals _) hr.ends hq
  · intro base a b hb
    exact mem_arrivals_plus (hr.arrivals _) hr.ends hb

theorem ListsMatches.between (greedy : Bool) (least most : Nat) :
    ListsMatches text start (.count greedy least (some most) r) := by
  constructor
  · intro p q hq
    simp only [Regex.ends] at hq
    simpa only [Matches, Option.mem_some_iff, forall_eq'] using mem_endsBetween hr.ends hq
  · intro base a b hb
    simp only [Regex.arrivals] at hb
    simpa only [Matches, Option.mem_some_iff, forall_eq'] using
      mem_arrivalsBetween (fun i => hr.arrivals _) hb

theorem ListsMatches.atLeast (greedy : Bool) (least : Nat) :
    ListsMatches text start (.count greedy least none r) := by
  cases least with
  | zero =>
    constructor
    · intro p q hq
      obtain ⟨n, hn⟩ := mem_ends_star (hr.arrivals _) hr.ends hq
      exact ⟨n, n.zero_le, nofun, hn⟩
    · intro base a b hb
      obtain ⟨n, hn⟩ := mem_arrivals_star (hr.arrivals _) hr.ends hb
      exact ⟨n, n.zero_le, nofun, hn⟩
  | succ least =>
    constructor
    · intro p q hq
      obtain ⟨m, hleast, hq⟩ := mem_continueFrom_exactly (fun _ => hr.ends) hq
      obtain ⟨n, hpos, hn⟩ := mem_ends_plus (hr.arrivals _) hr.ends hq
      exact ⟨least + n, by omega, nofun, hleast.trans hn⟩
    · intro base a b hb
      obtain ⟨c, hleast, hb⟩ := mem_continueFrom_exactly
        (R := OnPlaces (r.Matches text start)) (fun i => hr.arrivals _) hb
      split at hb
      · obtain ⟨n, hpos, hn⟩ := mem_loopPlus (hr.arrivals _) hb
        exact ⟨least + n, by omega, nofun, (steps_onPlaces hleast).trans hn⟩
      · obtain ⟨n, hpos, hn⟩ := mem_runPlus hr.ends hb
        exact ⟨least + n, by omega, nofun, (steps_onPlaces hleast).trans hn⟩

end Parts

theorem listsMatches (r : Regex) : ListsMatches text start r := by
  induction r with
  | empty => exact listsMatches_empty
  | chars c => exact listsMatches_chars c
  | check a => exact listsMatches_check a
  | seq r s ihr ihs => exact ihr.seq ihs
  | alt r s ihr ihs => exact ihr.alt ihs
  | opt greedy r ih => exact ih.opt greedy
  | star greedy r ih => exact ih.star greedy
  | plus greedy r ih => exact ih.plus greedy
  | count greedy least most r ih =>
    cases most with
    | some most => exact ih.between greedy least most
    | none => exact ih.atLeast greedy least

theorem matches_of_mem_ends {r : Regex} {p q : Nat} (h : q ∈ r.ends text start p) :
    r.Matches text start p q := r.listsMatches.ends p q h

/-- A match does not go back and does not leave the text. -/
theorem Matches.bounds {r : Regex} {p q : Nat} (h : r.Matches text start p q)
    (hp : p ≤ text.size) : p ≤ q ∧ q ≤ text.size := by
  induction r generalizing p q with
  | empty =>
    cases h
    exact ⟨Nat.le_refl p, hp⟩
  | chars c =>
    obtain ⟨ch, width, hat, _, rfl⟩ := h
    have hwidth := Utf8.at?_width hat
    omega
  | check a =>
    obtain ⟨_, rfl⟩ := h
    exact ⟨Nat.le_refl p, hp⟩
  | seq r s ihr ihs =>
    obtain ⟨m, hr, hs⟩ := h
    have hm := ihr hr hp
    have hq := ihs hs hm.2
    omega
  | alt r s ihr ihs =>
    rcases h with h | h
    · exact ihr h hp
    · exact ihs h hp
  | opt greedy r ih =>
    rcases h with rfl | h
    · exact ⟨Nat.le_refl p, hp⟩
    · exact ih h hp
  | star greedy r ih =>
    obtain ⟨n, hn⟩ := h
    exact hn.bounds (fun _ _ => ih) hp
  | plus greedy r ih =>
    obtain ⟨n, _, hn⟩ := h
    exact hn.bounds (fun _ _ => ih) hp
  | count greedy least most r ih =>
    obtain ⟨n, _, _, hn⟩ := h
    exact hn.bounds (fun _ _ => ih) hp

theorem ends_bounds {r : Regex} {p q : Nat} (hp : p ≤ text.size)
    (h : q ∈ (r.ends text start p).head?) : p ≤ q ∧ q ≤ text.size :=
  (matches_of_mem_ends (List.mem_of_head? h)).bounds hp

theorem search_bounds {r : Regex} {fuel p q : Nat} (hp : p ≤ text.size)
    (h : search text start r fuel p = some q) : p ≤ q ∧ q ≤ text.size := by
  induction fuel generalizing p with
  | zero => cases h
  | succ fuel ih =>
    simp only [search] at h
    split at h
    · rename_i q' hq
      cases h
      exact ends_bounds hp hq
    · split at h
      · rename_i c width hat
        have hwidth := Utf8.at?_width hat
        have hq := ih (by omega) h
        omega
      · cases h

/-- A match that is found ends inside the text, behind the place where it is sought. -/
theorem findEnd?_bounds {r : Regex} {q : Nat} (hstart : start ≤ text.size)
    (h : r.findEnd? text start = some q) : start ≤ q ∧ q ≤ text.size := by
  unfold findEnd? at h
  split at h
  · exact ends_bounds hstart h
  · exact search_bounds hstart h

end Regex

end Backtrack
