import Mathlib.Data.Finset.Range
import Mathlib.Data.Finset.Card
import Backtrack.Proofs.Regex.Matching

/-!
# Walks that are carried along

A map that keeps keys apart and together carries a list of places to another one, and every function
by which the matcher orders and collects places commutes with it. For a walk this needs fuel: as
long as each key below a limit is left once, the walk comes to its own end, and no fuel beyond that
makes a difference.

This module does NOT say which places are collected.
-/

namespace Backtrack.Regex

variable {α β : Type}

section Unseen

/-- The keys below a limit that are still to come. -/
def unseen (limit : Nat) (seen : Std.HashSet Nat) : Finset Nat :=
  (Finset.range limit).filter (· ∉ seen)

variable {limit k : Nat} {seen : Std.HashSet Nat}

theorem card_unseen_le : (unseen limit seen).card ≤ limit := by
  apply Nat.le_trans (Finset.card_filter_le _ _)
  rw [Finset.card_range]

theorem card_unseen_insert (hk : k < limit) (hseen : ¬ seen.contains k = true) :
    (unseen limit (seen.insert k)).card + 1 = (unseen limit seen).card := by
  have hmem : k ∈ unseen limit seen := by simpa [unseen, hk] using hseen
  have herase : unseen limit (seen.insert k) = (unseen limit seen).erase k := by
    ext j
    simp only [unseen, Finset.mem_filter, Finset.mem_range, Finset.mem_erase,
      Std.HashSet.mem_insert, beq_iff_eq, not_or]
    constructor
    · intro ⟨hj, hkj, hnot⟩
      exact ⟨Ne.symm hkj, hj, hnot⟩
    · intro ⟨hjk, hj, hnot⟩
      exact ⟨hj, Ne.symm hjk, hnot⟩
  rw [herase, Finset.card_erase_add_one hmem]

end Unseen

/-- A map under which the elements that satisfy `P`, whose keys are below a limit, have the same key
afterwards if and only if they had it before. -/
structure Carries (P : α → Prop) (f : α → β) (key : α → Nat) (key' : β → Nat) (limit : Nat) :
    Prop where
  below : ∀ a, P a → key a < limit
  agree : ∀ a b, P a → P b → (key' (f a) = key' (f b) ↔ key a = key b)

/-- A short list of elements that satisfy `P`, and the list it is carried to. -/
structure Copy (P : α → Prop) (f : α → β) (limit : Nat) (as : List α) (bs : List β) : Prop where
  valid : ∀ a ∈ as, P a
  few : as.length ≤ limit
  image : bs = as.map f

variable {P : α → Prop} {f : α → β} {key : α → Nat} {key' : β → Nat} {limit width : Nat}

theorem Copy.nil : Copy P f limit [] [] := ⟨by simp, Nat.zero_le _, rfl⟩

theorem Copy.single (hlimit : 0 < limit) {a : α} (ha : P a) : Copy P f limit [a] [f a] :=
  ⟨by simpa using ha, hlimit, rfl⟩

theorem length_flatMap_le {as : List α} {step : α → List β}
    (hstep : ∀ a ∈ as, (step a).length ≤ 1) : (as.flatMap step).length ≤ as.length := by
  induction as with
  | nil => exact Nat.le_refl 0
  | cons a as ih =>
    obtain ⟨ha, has⟩ := List.forall_mem_cons.mp hstep
    have hih := ih has
    rw [List.flatMap_cons, List.length_append, List.length_cons]
    omega

theorem Copy.flatMap {as : List α} {bs : List β} (h : Copy P f limit as bs) {step : α → List α}
    {step' : β → List β} (hstep : ∀ a, P a → Copy P f 1 (step a) (step' (f a))) :
    Copy P f limit (as.flatMap step) (bs.flatMap step') := by
  refine ⟨?_, ?_, ?_⟩
  · intro b hb
    obtain ⟨a, ha, hb⟩ := List.mem_flatMap.mp hb
    exact (hstep a (h.valid a ha)).valid b hb
  · have hlength := length_flatMap_le fun a ha => (hstep a (h.valid a ha)).few
    exact Nat.le_trans hlength h.few
  · rw [h.image, List.flatMap_map, List.map_flatMap]
    apply List.flatMap_congr
    intro a ha
    exact (hstep a (h.valid a ha)).image

def SameSeen (P : α → Prop) (f : α → β) (key : α → Nat) (key' : β → Nat)
    (seen seen' : Std.HashSet Nat) : Prop :=
  ∀ a, P a → seen'.contains (key' (f a)) = seen.contains (key a)

theorem sameSeen_empty : SameSeen P f key key' {} {} := by
  intro a _
  simp

/-- One step of the collection of first elements. -/
def keep (key : α → Nat) : Std.HashSet Nat × List α → α → Std.HashSet Nat × List α
  | (seen, kept), a =>
    if seen.contains (key a) then (seen, kept) else (seen.insert (key a), a :: kept)

theorem firsts_eq (as : List α) : firsts key as = (as.foldl (keep key) ({}, [])).2.reverse := rfl

namespace Carries

variable (carries : Carries P f key key' limit)
include carries

theorem sameSeen_insert {seen seen' : Std.HashSet Nat} (hseen : SameSeen P f key key' seen seen')
    {a : α} (ha : P a) :
    SameSeen P f key key' (seen.insert (key a)) (seen'.insert (key' (f a))) := by
  intro b hb
  have heq : (key' (f a) == key' (f b)) = (key a == key b) := by
    rw [Bool.eq_iff_iff, beq_iff_eq, beq_iff_eq]
    exact carries.agree a b ha hb
  rw [Std.HashSet.contains_insert, Std.HashSet.contains_insert, heq, hseen b hb]

theorem length_foldl_keep {as : List α} (hvalid : ∀ a ∈ as, P a) (seen : Std.HashSet Nat)
    (kept : List α) :
    (as.foldl (keep key) (seen, kept)).2.length ≤ kept.length + (unseen limit seen).card := by
  induction as generalizing seen kept with
  | nil => exact Nat.le_add_right _ _
  | cons a as ih =>
    obtain ⟨ha, has⟩ := List.forall_mem_cons.mp hvalid
    rw [List.foldl_cons, keep]
    by_cases hseen : seen.contains (key a) = true
    · rw [if_pos hseen]
      exact ih has seen kept
    · rw [if_neg hseen]
      have hcard := card_unseen_insert (carries.below a ha) hseen
      have hih := ih has (seen.insert (key a)) (a :: kept)
      rw [List.length_cons] at hih
      omega

theorem foldl_keep_map {as : List α} (hvalid : ∀ a ∈ as, P a) (seen seen' : Std.HashSet Nat)
    (kept : List α) (hseen : SameSeen P f key key' seen seen') :
    ((as.map f).foldl (keep key') (seen', kept.map f)).2 =
      (as.foldl (keep key) (seen, kept)).2.map f := by
  induction as generalizing seen seen' kept with
  | nil => rfl
  | cons a as ih =>
    obtain ⟨ha, has⟩ := List.forall_mem_cons.mp hvalid
    rw [List.map_cons, List.foldl_cons, List.foldl_cons, keep, keep, hseen a ha]
    by_cases hvisited : seen.contains (key a) = true
    · rw [if_pos hvisited, if_pos hvisited]
      exact ih has seen seen' kept hseen
    · rw [if_neg hvisited, if_neg hvisited]
      exact ih has _ _ (a :: kept) (carries.sameSeen_insert hseen ha)

theorem firsts {as : List α} (hvalid : ∀ a ∈ as, P a) :
    Copy P f limit (firsts key as) (firsts key' (as.map f)) := by
  refine ⟨fun a ha => hvalid a (mem_firsts ha), ?_, ?_⟩
  · have h := carries.length_foldl_keep hvalid {} []
    have hlimit : (unseen limit {}).card ≤ limit := card_unseen_le
    rw [firsts_eq, List.length_reverse]
    rw [List.length_nil] at h
    omega
  · rw [firsts_eq, firsts_eq, List.map_reverse]
    exact congrArg List.reverse (carries.foldl_keep_map hvalid {} {} [] sameSeen_empty)

theorem continueFrom {as : List α} (hvalid : ∀ a ∈ as, P a) {step : α → List α}
    {step' : β → List β} (hstep : ∀ a, P a → Copy P f width (step a) (step' (f a))) :
    Copy P f limit (continueFrom key as step) (continueFrom key' (as.map f) step') := by
  have himage : (as.map f).flatMap step' = (as.flatMap step).map f := by
    rw [List.flatMap_map, List.map_flatMap]
    apply List.flatMap_congr
    intro a ha
    exact (hstep a (hvalid a ha)).image
  unfold Regex.continueFrom
  rw [himage]
  apply carries.firsts
  intro b hb
  obtain ⟨a, ha, hb⟩ := List.mem_flatMap.mp hb
  exact (hstep a (hvalid a ha)).valid b hb

theorem withStop {greedy : Bool} {a : α} {more : List α} {more' : List β} (ha : P a)
    (hmore : Copy P f width more more') :
    Copy P f limit (withStop key greedy a more) (withStop key' greedy (f a) more') := by
  obtain ⟨hvalid, _, rfl⟩ := hmore
  unfold Regex.withStop
  cases greedy with
  | true =>
    have h := carries.firsts (List.forall_mem_append.mpr ⟨hvalid, List.forall_mem_singleton.mpr ha⟩)
    rwa [List.map_append] at h
  | false => exact carries.firsts (List.forall_mem_cons.mpr ⟨ha, hvalid⟩)

theorem exactly {step : Nat → α → List α} {step' : Nat → β → List β}
    (hstep : ∀ i a, P a → Copy P f width (step i a) (step' i (f a))) (n : Nat) :
    ∀ (i : Nat) (as : List α) (bs : List β), Copy P f limit as bs →
      Copy P f limit (exactly key step n i as) (exactly key' step' n i bs) := by
  induction n with
  | zero => exact fun _ _ _ h => h
  | succ n ih =>
    intro i as bs h
    obtain ⟨hvalid, _, rfl⟩ := h
    exact ih (i + 1) _ _ (carries.continueFrom hvalid (hstep i))

end Carries

def Task.map (f : α → β) : Task α → Task β
  | .visit a => .visit (f a)
  | .stop a => .stop (f a)

def Task.isStop : Task α → Bool
  | .visit _ => false
  | .stop _ => true

theorem walk_nil {greedy : Bool} {step : α → List α} (fuel : Nat) (seen : Std.HashSet Nat)
    (stops : List α) : walk key greedy step fuel seen stops [] = stops.reverse := by
  cases fuel <;> rfl

section Walk

variable {step : α → List α} {step' : β → List β} (greedy : Bool)
variable (carries : Carries P f key key' limit)
variable (hstep : ∀ a, P a → Copy P f width (step a) (step' (f a)))
include carries hstep

omit carries in
theorem visits_valid {a : α} (ha : P a) : ∀ t ∈ (step a).map Task.visit, P t.place := by
  intro t ht
  obtain ⟨b, hb, rfl⟩ := List.mem_map.mp ht
  exact (hstep a ha).valid b hb

/-- Each key makes one stop. -/
theorem length_walk_le (fuel : Nat) (seen : Std.HashSet Nat) (stops : List α)
    (tasks : List (Task α)) (htasks : ∀ t ∈ tasks, P t.place) :
    (walk key greedy step fuel seen stops tasks).length ≤
      stops.length + tasks.countP Task.isStop + (unseen limit seen).card := by
  have hvisit : ∀ as : List α, (as.map Task.visit).countP Task.isStop = 0 := by
    intro as
    rw [List.countP_map]
    exact List.countP_eq_zero.mpr fun _ _ => Bool.false_ne_true
  induction fuel generalizing seen stops tasks with
  | zero =>
    rw [walk, List.length_reverse]
    omega
  | succ fuel ih =>
    cases tasks with
    | nil =>
      rw [walk_nil, List.length_reverse]
      omega
    | cons t rest =>
      obtain ⟨hplace, hrest⟩ := List.forall_mem_cons.mp htasks
      cases t with
      | stop a =>
        have hih := ih seen (a :: stops) rest hrest
        rw [List.length_cons] at hih
        rw [walk, List.countP_cons_of_pos rfl]
        omega
      | visit a =>
        rw [walk, List.countP_cons_of_neg Bool.false_ne_true]
        by_cases hseen : seen.contains (key a) = true
        · rw [if_pos hseen]
          exact ih seen stops rest hrest
        rw [if_neg hseen]
        have hcard := card_unseen_insert (carries.below a hplace) hseen
        have honward := visits_valid hstep hplace
        cases greedy with
        | true =>
          have hih := ih (seen.insert (key a)) stops ((step a).map .visit ++ .stop a :: rest)
            (List.forall_mem_append.mpr ⟨honward, List.forall_mem_cons.mpr ⟨hplace, hrest⟩⟩)
          rw [List.countP_append, hvisit, List.countP_cons_of_pos rfl] at hih
          rw [if_pos rfl]
          omega
        | false =>
          have hih := ih (seen.insert (key a)) (a :: stops) ((step a).map .visit ++ rest)
            (List.forall_mem_append.mpr ⟨honward, hrest⟩)
          rw [List.countP_append, hvisit, List.length_cons] at hih
          rw [if_neg Bool.false_ne_true]
          omega

/-- A walk with fuel for its tasks and for those that the keys to come will add is carried along,
and has come to its end on both sides. -/
theorem walk_map (fuel fuel' : Nat) (seen seen' : Std.HashSet Nat) (stops : List α)
    (tasks : List (Task α)) (hfuel : tasks.length + (unseen limit seen).card * (width + 1) ≤ fuel)
    (hfuel' : tasks.length + (unseen limit seen).card * (width + 1) ≤ fuel')
    (hseen : SameSeen P f key key' seen seen') (htasks : ∀ t ∈ tasks, P t.place) :
    walk key' greedy step' fuel' seen' (stops.map f) (tasks.map (Task.map f)) =
      (walk key greedy step fuel seen stops tasks).map f := by
  induction fuel generalizing fuel' seen seen' stops tasks with
  | zero =>
    have hnil : tasks = [] := List.eq_nil_of_length_eq_zero (by omega)
    rw [hnil, List.map_nil, walk_nil, walk_nil, List.map_reverse]
  | succ fuel ih =>
    cases tasks with
    | nil => rw [List.map_nil, walk_nil, walk_nil, List.map_reverse]
    | cons t rest =>
      obtain ⟨hplace, hrest⟩ := List.forall_mem_cons.mp htasks
      rw [List.length_cons] at hfuel hfuel'
      obtain ⟨fuel', rfl⟩ := Nat.exists_eq_add_one.mpr (show 0 < fuel' by omega)
      cases t with
      | stop a =>
        rw [List.map_cons, Task.map, walk, walk]
        exact ih fuel' seen seen' (a :: stops) rest (by omega) (by omega) hseen hrest
      | visit a =>
        change P a at hplace
        rw [List.map_cons, Task.map, walk, walk, hseen a hplace]
        by_cases hvisited : seen.contains (key a) = true
        · rw [if_pos hvisited, if_pos hvisited]
          exact ih fuel' seen seen' stops rest (by omega) (by omega) hseen hrest
        rw [if_neg hvisited, if_neg hvisited]
        have hcard := card_unseen_insert (carries.below a hplace) hvisited
        have hseen := carries.sameSeen_insert hseen hplace
        have hfew := (hstep a hplace).few
        have honward := visits_valid hstep hplace
        have himage :
            (step' (f a)).map Task.visit = ((step a).map Task.visit).map (Task.map f) := by
          rw [(hstep a hplace).image, List.map_map, List.map_map]
          rfl
        -- One key less is unseen, which pays for the stop and the visits that it adds.
        have hpay : (unseen limit seen).card * (width + 1) =
            (unseen limit (seen.insert (key a))).card * (width + 1) + (width + 1) := by
          rw [← hcard, Nat.succ_mul]
        cases greedy with
        | true =>
          have hlength : ((step a).map Task.visit ++ .stop a :: rest).length =
              (step a).length + (rest.length + 1) := by
            rw [List.length_append, List.length_map, List.length_cons]
          have h := ih fuel' _ _ stops ((step a).map Task.visit ++ .stop a :: rest)
            (by omega) (by omega) hseen
            (List.forall_mem_append.mpr ⟨honward, List.forall_mem_cons.mpr ⟨hplace, hrest⟩⟩)
          rw [List.map_append, ← himage, List.map_cons] at h
          exact h
        | false =>
          have hlength : ((step a).map Task.visit ++ rest).length =
              (step a).length + rest.length := by
            rw [List.length_append, List.length_map]
          have h := ih fuel' _ _ (a :: stops) ((step a).map Task.visit ++ rest)
            (by omega) (by omega) hseen (List.forall_mem_append.mpr ⟨honward, hrest⟩)
          rw [List.map_append, ← himage] at h
          exact h

theorem walkFrom_copy {fuel fuel' : Nat} {places : List α} {places' : List β}
    (hplaces : Copy P f width places places') (hfuel : width + limit * (width + 1) ≤ fuel)
    (hfuel' : width + limit * (width + 1) ≤ fuel') :
    Copy P f limit (walkFrom key greedy step fuel places)
      (walkFrom key' greedy step' fuel' places') := by
  obtain ⟨hvalid, hfew, rfl⟩ := hplaces
  have htasks : ∀ t ∈ places.map Task.visit, P t.place := by
    intro t ht
    obtain ⟨a, ha, rfl⟩ := List.mem_map.mp ht
    exact hvalid a ha
  have hunseen : (unseen limit {}).card ≤ limit := card_unseen_le
  have hcost : (places.map Task.visit).length + (unseen limit {}).card * (width + 1) ≤
      width + limit * (width + 1) := by
    rw [List.length_map]
    exact Nat.add_le_add hfew (Nat.mul_le_mul_right _ hunseen)
  refine ⟨walkFrom_forall (fun a ha => (hstep a ha).valid) hvalid, ?_, ?_⟩
  · have h := length_walk_le greedy carries hstep fuel {} [] _ htasks
    have hzero : places.countP (Task.isStop ∘ Task.visit) = 0 :=
      List.countP_eq_zero.mpr fun _ _ => Bool.false_ne_true
    rw [List.countP_map, List.length_nil, hzero] at h
    exact Nat.le_trans h (by omega)
  · have h := walk_map greedy carries hstep fuel fuel' {} {} [] _ (Nat.le_trans hcost hfuel)
      (Nat.le_trans hcost hfuel') sameSeen_empty htasks
    rw [List.map_map] at h
    unfold walkFrom
    rw [List.map_map]
    exact h

end Walk

theorem mul_add_eq_iff {i j k l : Nat} (hk : k < width) (hl : l < width) :
    i * width + k = j * width + l ↔ i = j ∧ k = l := by
  constructor
  · intro h
    have hdiv : ∀ m n, n < width → (m * width + n) / width = m := by
      intro m n hn
      rw [Nat.mul_comm, Nat.mul_add_div (by omega), Nat.div_eq_of_lt hn, Nat.add_zero]
    have hij : i = j := by rw [← hdiv i k hk, h, hdiv j l hl]
    subst hij
    exact ⟨rfl, by omega⟩
  · intro ⟨hij, hkl⟩
    rw [hij, hkl]

theorem Carries.atMost (carries : Carries P f key key' width) {width' : Nat}
    (hwidth' : ∀ a, P a → key' (f a) < width') {step : Nat → α → List α}
    {step' : Nat → β → List β} (hstep : ∀ i a, P a → Copy P f width (step i a) (step' i (f a)))
    {fuel fuel' n i : Nat} {greedy : Bool} {a : α} (ha : P a)
    (hfuel : width + (n + 1) * width * (width + 1) ≤ fuel)
    (hfuel' : width + (n + 1) * width * (width + 1) ≤ fuel') :
    Copy P f width (atMost key width fuel greedy step n i a)
      (atMost key' width' fuel' greedy step' n i (f a)) := by
  have hwidth : 0 < width := Nat.zero_lt_of_lt (carries.below a ha)
  have hnumbered : Carries (fun s : Nat × α => s.1 ≤ n ∧ P s.2) (fun s => (s.1, f s.2))
      (fun s => s.1 * width + key s.2) (fun s => s.1 * width' + key' s.2) ((n + 1) * width) := by
    constructor
    · intro s hs
      have hmul : s.1 * width ≤ n * width := Nat.mul_le_mul_right _ hs.1
      have hbelow := carries.below s.2 hs.2
      rw [Nat.succ_mul]
      omega
    · intro s t hs ht
      dsimp only
      rw [mul_add_eq_iff (hwidth' s.2 hs.2) (hwidth' t.2 ht.2),
        mul_add_eq_iff (carries.below s.2 hs.2) (carries.below t.2 ht.2),
        carries.agree s.2 t.2 hs.2 ht.2]
  let onward : Nat × α → List (Nat × α) := fun s =>
    if s.1 < n then (step (i + s.1) s.2).map (s.1 + 1, ·) else []
  let onward' : Nat × β → List (Nat × β) := fun s =>
    if s.1 < n then (step' (i + s.1) s.2).map (s.1 + 1, ·) else []
  have honward : ∀ s : Nat × α, s.1 ≤ n ∧ P s.2 →
      Copy (fun s : Nat × α => s.1 ≤ n ∧ P s.2) (fun s => (s.1, f s.2)) width
        (onward s) (onward' (s.1, f s.2)) := by
    intro s hs
    dsimp only [onward, onward']
    split
    · rename_i hdone
      have hcopy := hstep (i + s.1) s.2 hs.2
      refine ⟨?_, by rw [List.length_map]; exact hcopy.few, ?_⟩
      · intro t ht
        obtain ⟨c, hc, rfl⟩ := List.mem_map.mp ht
        exact ⟨hdone, hcopy.valid c hc⟩
      · rw [hcopy.image, List.map_map, List.map_map]
        rfl
    · exact Copy.nil
  have hwalk := walkFrom_copy greedy hnumbered honward
    (Copy.single hwidth (a := (0, a)) ⟨Nat.zero_le n, ha⟩) hfuel hfuel'
  unfold Regex.atMost
  dsimp only
  have himage : (walkFrom (fun s => s.1 * width' + key' s.2) greedy onward' fuel'
      [(0, f a)]).map Prod.snd = ((walkFrom (fun s => s.1 * width + key s.2) greedy onward
        fuel [(0, a)]).map Prod.snd).map f := by
    rw [hwalk.image, List.map_map, List.map_map]
    rfl
  rw [himage]
  apply carries.firsts
  intro b hb
  obtain ⟨s, hs, rfl⟩ := List.mem_map.mp hb
  exact (hwalk.valid s hs).2

end Backtrack.Regex
