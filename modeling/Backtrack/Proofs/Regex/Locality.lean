import Backtrack.Proofs.Regex.Walking

/-!
# What is found depends on the rest of the text

A regular expression that is sought from a place on finds the same in the rest of the text alone,
with other bytes in front, or with none: conditions on a place look back to where the search began
and no further, and the bounds on the work, which grow with the text, are never reached.

This module does NOT say where a search that begins elsewhere ends: what is in front of the place
where a match starts, inside the text that is searched, does count.
-/

namespace Backtrack

section Conditions

variable (front rest : Array UInt8) {start p : Nat}

theorem getElem?_append_size (n : Nat) : (front ++ rest)[front.size + n]? = rest[n]? := by
  rw [Array.getElem?_append_right (Nat.le_add_right _ _), Nat.add_sub_cancel_left]

theorem extract_append_size (p q : Nat) :
    (front ++ rest).extract (front.size + p) (front.size + q) = rest.extract p q := by
  apply Array.toList_inj.mp
  simp [List.extract_eq_take_drop]

theorem Utf8.at?_append : Utf8.at? (front ++ rest) (front.size + p) = Utf8.at? rest p := by
  unfold Utf8.at?
  rw [Nat.add_assoc, extract_append_size]

theorem byteBefore?_append :
    byteBefore? (front ++ rest) (front.size + start) (front.size + p) =
      byteBefore? rest start p := by
  unfold byteBefore?
  by_cases h : start < p
  · have hp : front.size + p - 1 = front.size + (p - 1) := by omega
    rw [if_pos (by omega), if_pos h, hp, getElem?_append_size]
  · rw [if_neg (by omega), if_neg h]

theorem Assertion.holds_append (a : Assertion) :
    a.holds (front ++ rest) (front.size + start) (front.size + p) = a.holds rest start p := by
  have hstart : front.size + p = front.size + start ↔ p = start := by omega
  have hend : front.size + p = (front ++ rest).size ↔ p = rest.size := by
    rw [Array.size_append]
    omega
  cases a <;>
    simp only [Assertion.holds, Assertion.holds.atBoundary, byteBefore?_append,
      getElem?_append_size, hstart, hend]

end Conditions

namespace Regex

def Arrival.moved (n : Nat) (a : Arrival) : Arrival := ⟨n + a.place, a.choices⟩

variable {rest : Array UInt8} {n : Nat}

/-- The places of a text, as the numbers that count from its beginning. -/
def Inside (rest : Array UInt8) (p : Nat) : Prop := p ≤ rest.size

theorem carries_places : Carries (Inside rest) (n + ·) id id (rest.size + 1) := by
  constructor
  · intro p hp
    exact Nat.lt_succ_of_le hp
  · intro p q _ _
    simp only [id_eq]
    omega

theorem carries_arrivals :
    Carries (fun a : Arrival => Inside rest a.place) (Arrival.moved n) Arrival.place Arrival.place
      (rest.size + 1) := by
  constructor
  · intro a ha
    exact Nat.lt_succ_of_le ha
  · intro a b _ _
    simp only [Arrival.moved]
    omega

abbrev Places (rest : Array UInt8) (n : Nat) : List Nat → List Nat → Prop :=
  Copy (Inside rest) (n + ·) (rest.size + 1)

abbrev Arrivals (rest : Array UInt8) (n : Nat) : List Arrival → List Arrival → Prop :=
  Copy (fun a : Arrival => Inside rest a.place) (Arrival.moved n) (rest.size + 1)

section Fuel

variable {text : Array UInt8} (hsize : rest.size ≤ text.size)
include hsize

theorem walkFuel_suffices :
    rest.size + 1 + (rest.size + 1) * (rest.size + 1 + 1) ≤ walkFuel text := by
  unfold walkFuel
  calc rest.size + 1 + (rest.size + 1) * (rest.size + 1 + 1)
      = (rest.size + 1) * (rest.size + 1 + 1 + 1) := by
          rw [Nat.mul_succ (rest.size + 1) (rest.size + 1 + 1), Nat.add_comm]
    _ ≤ (text.size + 3) * (text.size + 3) := Nat.mul_le_mul (by omega) (by omega)

theorem atMostFuel_suffices {least most : Nat} :
    rest.size + 1 + (most - least + 1) * (rest.size + 1) * (rest.size + 1 + 1) ≤
      (most + 1) * walkFuel text := by
  have hsteps : most - least + 1 ≤ most + 1 := by omega
  rw [Nat.mul_assoc]
  calc rest.size + 1 + (most - least + 1) * ((rest.size + 1) * (rest.size + 1 + 1))
      ≤ (most + 1) * (rest.size + 1) + (most + 1) * ((rest.size + 1) * (rest.size + 1 + 1)) :=
        Nat.add_le_add (Nat.le_mul_of_pos_left _ (Nat.succ_pos most))
          (Nat.mul_le_mul_right _ hsteps)
    _ = (most + 1) * (rest.size + 1 + (rest.size + 1) * (rest.size + 1 + 1)) :=
        (Nat.mul_add _ _ _).symm
    _ ≤ (most + 1) * walkFuel text := Nat.mul_le_mul_left _ (walkFuel_suffices hsize)

end Fuel

theorem choose?_moved (a : Arrival) (number : Nat) :
    (a.moved n).choose? number = (a.choose? number).map (Arrival.moved n) := by
  unfold Arrival.choose?
  show (if a.choices.contains number then _ else _) = _
  by_cases h : a.choices.contains number = true
  · rw [if_pos h, if_pos h]
    rfl
  · rw [if_neg h, if_neg h]
    rfl

theorem choose_copy {a : Arrival} (ha : Inside rest a.place) {number : Nat}
    {next next' : Arrival → List Arrival}
    (hnext : ∀ a : Arrival, Inside rest a.place → Arrivals rest n (next a) (next' (a.moved n))) :
    Arrivals rest n (a.choose number next) ((a.moved n).choose number next') := by
  unfold Arrival.choose
  rw [choose?_moved]
  cases h : a.choose? number with
  | none => exact Copy.nil
  | some b =>
    apply hnext
    rw [choose?_place h]
    exact ha

theorem filterMap_choose?_copy {as as' : List Arrival} (h : Arrivals rest n as as') (number : Nat) :
    Arrivals rest n (as.filterMap (·.choose? number)) (as'.filterMap (·.choose? number)) := by
  refine ⟨?_, Nat.le_trans (List.length_filterMap_le _ _) h.few, ?_⟩
  · intro b hb
    obtain ⟨a, ha, hab⟩ := List.mem_filterMap.mp hb
    rw [choose?_place hab]
    exact h.valid a ha
  · rw [h.image, List.filterMap_map, List.map_filterMap]
    congr 1
    funext a
    exact choose?_moved a number

theorem places_copy {as as' : List Arrival} (h : Arrivals rest n as as') :
    Places rest n (as.map Arrival.place) (as'.map Arrival.place) := by
  refine ⟨?_, by rw [List.length_map]; exact h.few, ?_⟩
  · intro p hp
    obtain ⟨a, ha, rfl⟩ := List.mem_map.mp hp
    exact h.valid a ha
  · rw [h.image, List.map_map, List.map_map]
    rfl

section Loops

variable {text : Array UInt8} (hsize : n + rest.size ≤ text.size) (greedy : Bool) (number : Nat)
include hsize

section Remembering

variable {body body' : Arrival → List Arrival}
variable (hbody : ∀ a : Arrival, Inside rest a.place → Arrivals rest n (body a) (body' (a.moved n)))
variable {a : Arrival} (ha : Inside rest a.place)
include hbody ha

theorem loopPlus_copy :
    Arrivals rest n (loopPlus greedy number (walkFuel rest) body a)
      (loopPlus greedy number (walkFuel text) body' (a.moved n)) := by
  have hstep : ∀ b : Arrival, Inside rest b.place →
      Arrivals rest n ((body b).filterMap (·.choose? number))
        ((body' (b.moved n)).filterMap (·.choose? number)) := by
    intro b hb
    exact filterMap_choose?_copy (hbody b hb) number
  exact walkFrom_copy greedy carries_arrivals hstep (hstep a ha) (walkFuel_suffices (Nat.le_refl _))
    (walkFuel_suffices (Nat.le_of_add_left_le hsize))

theorem loopStar_copy :
    Arrivals rest n (loopStar greedy number (walkFuel rest) body a)
      (loopStar greedy number (walkFuel text) body' (a.moved n)) := by
  apply choose_copy ha
  intro b hb
  exact carries_arrivals.withStop hb (loopPlus_copy hsize greedy (number + 1) hbody hb)

end Remembering

section Running

variable {step step' : Nat → List Nat}
variable (hstep : ∀ p, Inside rest p → Places rest n (step p) (step' (n + p)))
include hstep

theorem walkFrom_places {ps ps' : List Nat} (hps : Places rest n ps ps') :
    Places rest n (walkFrom id greedy step (walkFuel rest) ps)
      (walkFrom id greedy step' (walkFuel text) ps') :=
  walkFrom_copy greedy carries_places hstep hps (walkFuel_suffices (Nat.le_refl _))
    (walkFuel_suffices (Nat.le_of_add_left_le hsize))

variable {a : Arrival} (ha : Inside rest a.place)
include ha

theorem runPlus_copy :
    Arrivals rest n (runPlus greedy number (walkFuel rest) step a)
      (runPlus greedy number (walkFuel text) step' (a.moved n)) := by
  have h := walkFrom_places hsize greedy hstep (hstep a.place ha)
  refine ⟨?_, ?_, ?_⟩
  · intro b hb
    obtain ⟨p, hp, rfl⟩ := List.mem_map.mp hb
    exact h.valid p hp
  · rw [runPlus, List.length_map]
    exact h.few
  · rw [runPlus, runPlus, List.map_map]
    show (walkFrom id greedy step' (walkFuel text) (step' (n + a.place))).map _ = _
    rw [h.image, List.map_map]
    rfl

theorem runStar_copy :
    Arrivals rest n (runStar greedy number (walkFuel rest) step a)
      (runStar greedy number (walkFuel text) step' (a.moved n)) := by
  apply choose_copy ha
  intro b hb
  have h := walkFrom_places hsize greedy hstep
    (Copy.single (Nat.succ_pos rest.size) hb)
  refine ⟨?_, ?_, ?_⟩
  · intro c hc
    obtain ⟨p, hp, rfl⟩ := List.mem_map.mp hc
    split
    · exact hb
    · exact h.valid p hp
  · rw [List.length_map]
    exact h.few
  · show (walkFrom id greedy step' (walkFuel text) [n + b.place]).map _ = _
    rw [h.image, List.map_map, List.map_map]
    apply List.map_congr_left
    intro p _
    have hplace : n + p = n + b.place ↔ p = b.place := by omega
    simp only [Function.comp_apply, Arrival.moved, hplace]
    split <;> rfl

end Running

section Either

variable {nullable : Bool} {body body' : Arrival → List Arrival} {step step' : Nat → List Nat}
variable (hbody : ∀ a : Arrival, Inside rest a.place → Arrivals rest n (body a) (body' (a.moved n)))
variable (hstep : ∀ p, Inside rest p → Places rest n (step p) (step' (n + p)))
include hbody hstep

theorem ends_star_copy {p : Nat} (hp : Inside rest p) :
    Places rest n
      (if nullable then (loopStar greedy number (walkFuel rest) body ⟨p, []⟩).map Arrival.place
        else walkFrom id greedy step (walkFuel rest) [p])
      (if nullable then
          (loopStar greedy number (walkFuel text) body' ⟨n + p, []⟩).map Arrival.place
        else walkFrom id greedy step' (walkFuel text) [n + p]) := by
  cases nullable with
  | true => exact places_copy (loopStar_copy hsize greedy number hbody (a := ⟨p, []⟩) hp)
  | false => exact walkFrom_places hsize greedy hstep (Copy.single (Nat.succ_pos _) hp)

theorem ends_plus_copy {p : Nat} (hp : Inside rest p) :
    Places rest n
      (if nullable then (loopPlus greedy number (walkFuel rest) body ⟨p, []⟩).map Arrival.place
        else walkFrom id greedy step (walkFuel rest) (step p))
      (if nullable then
          (loopPlus greedy number (walkFuel text) body' ⟨n + p, []⟩).map Arrival.place
        else walkFrom id greedy step' (walkFuel text) (step' (n + p))) := by
  cases nullable with
  | true => exact places_copy (loopPlus_copy hsize greedy number hbody (a := ⟨p, []⟩) hp)
  | false => exact walkFrom_places hsize greedy hstep (hstep p hp)

variable {a : Arrival} (ha : Inside rest a.place)
include ha

theorem arrivals_star_copy :
    Arrivals rest n
      (if nullable then loopStar greedy number (walkFuel rest) body a
        else runStar greedy number (walkFuel rest) step a)
      (if nullable then loopStar greedy number (walkFuel text) body' (a.moved n)
        else runStar greedy number (walkFuel text) step' (a.moved n)) := by
  cases nullable with
  | true => exact loopStar_copy hsize greedy number hbody ha
  | false => exact runStar_copy hsize greedy number hstep ha

theorem arrivals_plus_copy :
    Arrivals rest n
      (if nullable then loopPlus greedy number (walkFuel rest) body a
        else runPlus greedy number (walkFuel rest) step a)
      (if nullable then loopPlus greedy number (walkFuel text) body' (a.moved n)
        else runPlus greedy number (walkFuel text) step' (a.moved n)) := by
  cases nullable with
  | true => exact loopPlus_copy hsize greedy number hbody ha
  | false => exact runPlus_copy hsize greedy number hstep ha

end Either
end Loops

section Between

variable {text : Array UInt8} (hsize : n + rest.size ≤ text.size) (greedy : Bool)
variable (least most : Nat)
include hsize

theorem endsBetween_copy {step step' : Nat → List Nat}
    (hstep : ∀ p, Inside rest p → Places rest n (step p) (step' (n + p))) {p : Nat}
    (hp : Inside rest p) :
    Places rest n (endsBetween rest greedy least most step p)
      (endsBetween text greedy least most step' (n + p)) := by
  have hleast := carries_places.exactly (fun _ => hstep) least 0 [p] [n + p]
    (Copy.single (Nat.succ_pos _) hp)
  unfold endsBetween
  dsimp only
  rw [hleast.image]
  apply carries_places.continueFrom hleast.valid
  intro q hq
  apply carries_places.atMost _ (fun _ => hstep) hq (atMostFuel_suffices (Nat.le_refl _))
    (atMostFuel_suffices (Nat.le_of_add_left_le hsize))
  intro p hp
  unfold Inside at hp
  rw [id_eq]
  omega

theorem arrivalsBetween_copy (number : Nat → Nat) {step step' : Nat → Arrival → List Arrival}
    (hstep : ∀ i (a : Arrival), Inside rest a.place →
      Arrivals rest n (step i a) (step' i (a.moved n))) {a : Arrival} (ha : Inside rest a.place) :
    Arrivals rest n (arrivalsBetween rest greedy least most number step a)
      (arrivalsBetween text greedy least most number step' (a.moved n)) := by
  have hleast := carries_arrivals.exactly hstep least 0 [a] [a.moved n]
    (Copy.single (Nat.succ_pos _) ha)
  let enter (i : Nat) (a : Arrival) : List Arrival :=
    if i < most then (a.choose? (number i)).toList else [a]
  have henter : ∀ i (b : Arrival), Inside rest b.place →
      Copy (fun a : Arrival => Inside rest a.place) (Arrival.moved n) 1 (enter i b)
        (enter i (b.moved n)) := by
    intro i b hb
    dsimp only [enter]
    by_cases hi : i < most
    · rw [if_pos hi, if_pos hi, choose?_moved]
      cases hc : b.choose? (number i) with
      | none => exact Copy.nil
      | some c =>
        apply Copy.single Nat.one_pos
        rw [choose?_place hc]
        exact hb
    · rw [if_neg hi, if_neg hi]
      exact Copy.single Nat.one_pos hb
  have hmore : ∀ i (b : Arrival), Inside rest b.place →
      Arrivals rest n ((step i b).flatMap (enter (i + 1)))
        ((step' i (b.moved n)).flatMap (enter (i + 1))) := by
    intro i b hb
    have hcopy := hstep i b hb
    exact hcopy.flatMap (henter (i + 1))
  unfold arrivalsBetween
  dsimp only
  rw [hleast.image]
  apply carries_arrivals.continueFrom hleast.valid
  intro b hb
  have hentered := henter least b hb
  show Arrivals rest n (Regex.continueFrom _ (enter least b) _)
    (Regex.continueFrom _ (enter least (b.moved n)) _)
  rw [hentered.image]
  apply carries_arrivals.continueFrom hentered.valid
  intro c hc
  apply carries_arrivals.atMost _ hmore hc (atMostFuel_suffices (Nat.le_refl _))
    (atMostFuel_suffices (Nat.le_of_add_left_le hsize))
  intro d hd
  unfold Inside at hd
  show n + d.place < text.size + 1
  omega

end Between

section Moved

variable (front rest : Array UInt8) (start : Nat)

/-- Sought from a place on, matches of an expression end where they do in the rest of the text
alone. -/
structure Shifts (r : Regex) : Prop where
  ends : ∀ p, Inside rest p → Places rest front.size (r.ends rest start p)
    (r.ends (front ++ rest) (front.size + start) (front.size + p))
  arrivals : ∀ base (a : Arrival), Inside rest a.place →
    Arrivals rest front.size (r.arrivals rest start base a)
      (r.arrivals (front ++ rest) (front.size + start) base (a.moved front.size))

variable {front rest start} {r s : Regex}

theorem copy_here {p : Nat} (hp : Inside rest p) :
    Places rest front.size [p] [front.size + p] := Copy.single (Nat.succ_pos _) hp

theorem copy_arrived {a : Arrival} (ha : Inside rest a.place) :
    Arrivals rest front.size [a] [a.moved front.size] := Copy.single (Nat.succ_pos _) ha

theorem size_le_append : front.size + rest.size ≤ (front ++ rest).size := by
  rw [Array.size_append]

theorem shifts_chars (c : CharClass) : Shifts front rest start (.chars c) := by
  constructor
  · intro p hp
    simp only [ends, Utf8.at?_append]
    cases hat : Utf8.at? rest p with
    | none => exact Copy.nil
    | some r =>
      dsimp only
      split
      · rw [Nat.add_assoc]
        exact copy_here (Utf8.at?_width hat).2
      · exact Copy.nil
  · intro base a ha
    simp only [arrivals, Arrival.moved, Utf8.at?_append]
    cases hat : Utf8.at? rest a.place with
    | none => exact Copy.nil
    | some r =>
      dsimp only
      split
      · rw [Nat.add_assoc]
        exact copy_arrived (a := ⟨a.place + r.2, []⟩) (Utf8.at?_width hat).2
      · exact Copy.nil

theorem shifts_check (b : Assertion) : Shifts front rest start (.check b) := by
  constructor
  · intro p hp
    simp only [ends, Assertion.holds_append]
    split
    · exact copy_here hp
    · exact Copy.nil
  · intro base a ha
    simp only [arrivals, Arrival.moved, Assertion.holds_append]
    split
    · exact copy_arrived ha
    · exact Copy.nil

section Parts

variable (hr : Shifts front rest start r)
include hr

theorem Shifts.seq (hs : Shifts front rest start s) : Shifts front rest start (.seq r s) := by
  constructor
  · intro p hp
    have hfirst := hr.ends p hp
    simp only [Regex.ends]
    rw [hfirst.image]
    exact carries_places.continueFrom hfirst.valid hs.ends
  · intro base a ha
    have hfirst := hr.arrivals base a ha
    simp only [Regex.arrivals]
    rw [hfirst.image]
    exact carries_arrivals.continueFrom hfirst.valid (hs.arrivals _)

theorem Shifts.alt (hs : Shifts front rest start s) : Shifts front rest start (.alt r s) := by
  constructor
  · intro p hp
    have hleft := hr.ends p hp
    have hright := hs.ends p hp
    simp only [Regex.ends]
    rw [hleft.image, hright.image, ← List.map_append]
    exact carries_places.firsts (List.forall_mem_append.mpr ⟨hleft.valid, hright.valid⟩)
  · intro base a ha
    simp only [Regex.arrivals]
    apply choose_copy ha
    intro b hb
    have hleft := hr.arrivals (base + 1) b hb
    have hright := hs.arrivals (base + 1 + r.choices) b hb
    rw [hleft.image, hright.image, ← List.map_append]
    exact carries_arrivals.firsts (List.forall_mem_append.mpr ⟨hleft.valid, hright.valid⟩)

theorem Shifts.opt (greedy : Bool) : Shifts front rest start (.opt greedy r) := by
  constructor
  · intro p hp
    exact carries_places.withStop hp (hr.ends p hp)
  · intro base a ha
    apply choose_copy ha
    intro b hb
    exact carries_arrivals.withStop hb (hr.arrivals _ b hb)

theorem Shifts.star (greedy : Bool) : Shifts front rest start (.star greedy r) := by
  constructor
  · intro p hp
    simp only [Regex.ends]
    exact ends_star_copy size_le_append greedy 0 (hr.arrivals _) hr.ends hp
  · intro base a ha
    simp only [Regex.arrivals]
    exact arrivals_star_copy size_le_append greedy base (hr.arrivals _) hr.ends ha

theorem Shifts.plus (greedy : Bool) : Shifts front rest start (.plus greedy r) := by
  constructor
  · intro p hp
    simp only [Regex.ends]
    exact ends_plus_copy size_le_append greedy 0 (hr.arrivals _) hr.ends hp
  · intro base a ha
    simp only [Regex.arrivals]
    exact arrivals_plus_copy size_le_append greedy base (hr.arrivals _) hr.ends ha

theorem Shifts.between (greedy : Bool) (least most : Nat) :
    Shifts front rest start (.count greedy least (some most) r) := by
  constructor
  · intro p hp
    simp only [Regex.ends]
    exact endsBetween_copy size_le_append greedy least most hr.ends hp
  · intro base a ha
    simp only [Regex.arrivals]
    exact arrivalsBetween_copy size_le_append greedy least most _ (fun i => hr.arrivals _) ha

theorem Shifts.atLeast (greedy : Bool) (least : Nat) :
    Shifts front rest start (.count greedy least none r) := by
  cases least with
  | zero =>
    constructor
    · intro p hp
      simp only [Regex.ends]
      exact ends_star_copy size_le_append greedy 0 (hr.arrivals _) hr.ends hp
    · intro base a ha
      simp only [Regex.arrivals]
      exact arrivals_star_copy size_le_append greedy base (hr.arrivals _) hr.ends ha
  | succ least =>
    constructor
    · intro p hp
      have hleast := carries_places.exactly (fun _ => hr.ends) least 0 _ _ (copy_here hp)
      simp only [Regex.ends]
      rw [hleast.image]
      apply carries_places.continueFrom hleast.valid
      intro q hq
      exact ends_plus_copy size_le_append greedy 0 (hr.arrivals _) hr.ends hq
    · intro base a ha
      have hleast := carries_arrivals.exactly
        (fun i => hr.arrivals (base + i * (r.choices + 2) + 2)) least 0 _ _ (copy_arrived ha)
      simp only [Regex.arrivals]
      rw [hleast.image]
      apply carries_arrivals.continueFrom hleast.valid
      intro b hb
      split
      · exact loopPlus_copy size_le_append greedy _ (hr.arrivals _) hb
      · exact runPlus_copy size_le_append greedy _ hr.ends hb

end Parts

variable (front rest start)

theorem shifts (r : Regex) : Shifts front rest start r := by
  induction r with
  | empty => exact ⟨fun p hp => copy_here hp, fun base a ha => copy_arrived ha⟩
  | chars c => exact shifts_chars c
  | check b => exact shifts_check b
  | seq r s ihr ihs => exact ihr.seq ihs
  | alt r s ihr ihs => exact ihr.alt ihs
  | opt greedy r ih => exact ih.opt greedy
  | star greedy r ih => exact ih.star greedy
  | plus greedy r ih => exact ih.plus greedy
  | count greedy least most r ih =>
    cases most with
    | some most => exact ih.between greedy least most
    | none => exact ih.atLeast greedy least

theorem search_append (r : Regex) (fuel : Nat) {p : Nat} (hp : Inside rest p) :
    search (front ++ rest) (front.size + start) r fuel (front.size + p) =
      (search rest start r fuel p).map (front.size + ·) := by
  induction fuel generalizing p with
  | zero => rfl
  | succ fuel ih =>
    have hends := (shifts front rest start r).ends p hp
    rw [search, search, hends.image, List.head?_map, Utf8.at?_append]
    cases (r.ends rest start p).head? with
    | some q => rfl
    | none =>
      cases hat : Utf8.at? rest p with
      | none => rfl
      | some c =>
        dsimp only [Option.map_none]
        rw [Nat.add_assoc]
        exact ih (Utf8.at?_width hat).2

/-- What a search from a place on finds, it finds in the rest of the text. -/
theorem findEnd?_append (r : Regex) (hstart : start ≤ rest.size) :
    r.findEnd? (front ++ rest) (front.size + start) =
      (r.findEnd? rest start).map (front.size + ·) := by
  unfold findEnd?
  split
  · rw [((shifts front rest start r).ends start hstart).image, List.head?_map]
  · have hfuel : (front ++ rest).size + 1 - (front.size + start) = rest.size + 1 - start := by
      rw [Array.size_append]
      omega
    rw [hfuel]
    exact search_append front rest start r _ hstart

end Moved

end Regex
end Backtrack
