import Backtrack.Proofs.Regex.Matching
import Backtrack.Proofs.Text.Blank
import Backtrack.Proofs.Text.Suffix

/-!
# Which match is preferred

`Regex.tries` goes through the ends of the matches of an expression, the preferred one first, and
stops at the first from which one can go on. It obeys the laws of a matcher with backtracking: one
after another is one inside the other, and an alternative is tried where the ones before it fail.
So the preferred match can be found by following the expression along the text.

The laws of repetitions are stated for bodies that match in at most one way and never the empty
text. This module does NOT treat other bodies.
-/

namespace Backtrack

namespace Regex

section Lists

variable {α β : Type}

theorem findSome?_flatMap {γ : Type} (as : List α) (f : α → List γ) (k : γ → Option β) :
    (as.flatMap f).findSome? k = as.findSome? fun a => (f a).findSome? k := by
  induction as with
  | nil => rfl
  | cons a as ih =>
    rw [List.flatMap_cons, List.findSome?_append, ih, List.findSome?_cons]
    cases (f a).findSome? k <;> rfl

/-- An element whose key occurred before adds nothing to a search that only looks at keys. -/
theorem findSome?_firsts {key : α → Nat} {k : α → Option β}
    (hk : ∀ a b, key a = key b → k a = k b) (as : List α) :
    (firsts key as).findSome? k = as.findSome? k := by
  unfold firsts
  dsimp only
  suffices hkept : ∀ (as : List α) (seen : Std.HashSet Nat) (kept : List α),
      (∀ n, seen.contains n = true → ∃ a ∈ kept, key a = n) →
      ((as.foldl (fun ((seen, kept) : Std.HashSet Nat × List α) a =>
        if seen.contains (key a) then (seen, kept) else (seen.insert (key a), a :: kept))
        (seen, kept)).2).reverse.findSome? k = (kept.reverse ++ as).findSome? k by
    exact hkept as {} [] (by simp)
  intro as
  induction as with
  | nil => simp
  | cons a as ih =>
    intro seen kept hseen
    rw [List.foldl_cons]
    dsimp only
    split
    · rename_i hcontains
      rw [ih seen kept hseen, List.findSome?_append, List.findSome?_append, List.findSome?_cons]
      obtain ⟨b, hb, hkey⟩ := hseen (key a) hcontains
      -- If nothing was found among the elements kept, then `b` gives nothing, and so does `a`.
      cases hfound : kept.reverse.findSome? k with
      | some x => rfl
      | none =>
        have hnone := List.findSome?_eq_none_iff.mp hfound b (List.mem_reverse.mpr hb)
        rw [hk a b hkey.symm, hnone]
    · rw [ih, List.reverse_cons, List.append_assoc, List.singleton_append]
      intro n hn
      rw [Std.HashSet.contains_insert, Bool.or_eq_true, beq_iff_eq] at hn
      rcases hn with rfl | hn
      · exact ⟨a, List.mem_cons_self, rfl⟩
      · obtain ⟨b, hb, hkey⟩ := hseen n hn
        exact ⟨b, List.mem_cons_of_mem a hb, hkey⟩

theorem findSome?_firsts_id (k : Nat → Option β) (as : List Nat) :
    (firsts id as).findSome? k = as.findSome? k :=
  findSome?_firsts (fun _ _ h => congrArg k h) as

theorem findSome?_continueFrom (k : Nat → Option β) (as : List Nat) (step : Nat → List Nat) :
    (continueFrom id as step).findSome? k = as.findSome? fun a => (step a).findSome? k := by
  unfold continueFrom
  rw [findSome?_firsts_id, findSome?_flatMap]

theorem firsts_nil {key : α → Nat} : firsts key ([] : List α) = [] := rfl

theorem firsts_singleton {key : α → Nat} (a : α) : firsts key [a] = [a] := by
  simp [firsts]

theorem firsts_of_length {key : α → Nat} {as : List α} (h : as.length ≤ 1) :
    firsts key as = as := by
  rcases as with _ | ⟨a, _ | ⟨b, as⟩⟩
  · rfl
  · exact firsts_singleton a
  · simp at h

theorem length_continueFrom {key : α → Nat} {as : List α} {step : α → List α}
    (has : as.length ≤ 1) (hstep : ∀ a ∈ as, (step a).length ≤ 1) :
    (continueFrom key as step).length ≤ 1 := by
  unfold continueFrom
  rcases as with _ | ⟨a, _ | ⟨b, as⟩⟩
  · simp [firsts_nil]
  · have ha := hstep a List.mem_cons_self
    rw [List.flatMap_singleton, firsts_of_length ha]
    exact ha
  · simp at has

end Lists

section Climb

variable {step : Nat → List Nat} {limit : Nat}

/-- The places that a walk without branches comes through, the last one first. -/
def climb (step : Nat → List Nat) : (n p : Nat) → List Nat
  | 0, p => [p]
  | n + 1, p =>
    match (step p).head? with
    | some q => climb step n q ++ [p]
    | none => [p]

/-- Up to a limit there is at most one way on, and it leads forward. -/
def Unbranched (step : Nat → List Nat) (limit : Nat) : Prop :=
  ∀ p, p ≤ limit → (step p).length ≤ 1 ∧ ∀ q ∈ step p, p < q ∧ q ≤ limit

theorem Unbranched.cases (h : Unbranched step limit) {p : Nat} (hp : p ≤ limit) :
    step p = [] ∨ ∃ q, step p = [q] ∧ p < q ∧ q ≤ limit := by
  obtain ⟨hlength, hforward⟩ := h p hp
  rcases hstep : step p with _ | ⟨q, _ | ⟨r, rest⟩⟩
  · exact .inl rfl
  · exact .inr ⟨q, rfl, hforward q (by rw [hstep]; exact List.mem_cons_self)⟩
  · rw [hstep] at hlength
    simp at hlength

theorem climb_of_nil {p : Nat} (h : step p = []) (n : Nat) : climb step n p = [p] := by
  cases n <;> simp [climb, h]

theorem climb_of_singleton {p q : Nat} (h : step p = [q]) (n : Nat) :
    climb step (n + 1) p = climb step n q ++ [p] := by
  simp [climb, h]

/-- More steps than there are places do not lead further. -/
theorem Unbranched.climb_eq (h : Unbranched step limit) {n m p : Nat} (hp : p ≤ limit)
    (hn : limit - p ≤ n) (hm : limit - p ≤ m) : climb step n p = climb step m p := by
  induction n generalizing m p with
  | zero =>
    rcases h.cases hp with hstep | ⟨q, hstep, hq, hlimit⟩
    · rw [climb_of_nil hstep, climb_of_nil hstep]
    · omega
  | succ n ih =>
    rcases h.cases hp with hstep | ⟨q, hstep, hq, hlimit⟩
    · rw [climb_of_nil hstep, climb_of_nil hstep]
    · obtain ⟨m, rfl⟩ : ∃ m', m = m' + 1 := ⟨m - 1, by omega⟩
      have hrest : climb step n q = climb step m q := ih hlimit (by omega) (by omega)
      rw [climb_of_singleton hstep, climb_of_singleton hstep, hrest]

theorem walk_stops {seen : Std.HashSet Nat} (fuel : Nat) (stops bs : List Nat)
    (hfuel : bs.length ≤ fuel) :
    walk id true step fuel seen stops (bs.map .stop) = stops.reverse ++ bs := by
  induction bs generalizing fuel stops with
  | nil => cases fuel <;> simp [walk]
  | cons b bs ih =>
    obtain ⟨fuel, rfl⟩ : ∃ fuel', fuel = fuel' + 1 :=
      ⟨fuel - 1, by rw [List.length_cons] at hfuel; omega⟩
    rw [List.length_cons] at hfuel
    rw [List.map_cons, walk, ih fuel (b :: stops) (by omega)]
    simp

theorem walk_stuck {p fuel : Nat} {seen : Std.HashSet Nat} (hstep : step p = [])
    (hfresh : seen.contains p = false) (stops bs : List Nat) (hfuel : bs.length + 2 ≤ fuel) :
    walk id true step fuel seen stops (.visit p :: bs.map .stop) = stops.reverse ++ p :: bs := by
  obtain ⟨fuel, rfl⟩ : ∃ fuel', fuel = fuel' + 1 := ⟨fuel - 1, by omega⟩
  rw [walk, id, hfresh, if_neg Bool.false_ne_true, hstep]
  exact walk_stops fuel stops (p :: bs) (by rw [List.length_cons]; omega)

/-- A walk without branches stops at every place it comes through, on the way back. -/
theorem Unbranched.walk_eq (h : Unbranched step limit) (n : Nat) :
    ∀ {p fuel : Nat} {seen : Std.HashSet Nat} (stops bs : List Nat), p ≤ limit → limit - p ≤ n →
      2 * n + 2 + bs.length ≤ fuel → (∀ q, p ≤ q → seen.contains q = false) →
      walk id true step fuel seen stops (.visit p :: bs.map .stop) =
        stops.reverse ++ climb step n p ++ bs := by
  -- `bs` are the places passed so far. A place costs one task on the way on and one on the way
  -- back.
  induction n with
  | zero =>
    intro p fuel seen stops bs hp hn hfuel hseen
    rcases h.cases hp with hstep | ⟨q, hstep, hq, hlimit⟩
    · rw [climb_of_nil hstep, walk_stuck hstep (hseen p (Nat.le_refl p)) stops bs (by omega)]
      simp
    · omega
  | succ n ih =>
    intro p fuel seen stops bs hp hn hfuel hseen
    have hfresh := hseen p (Nat.le_refl p)
    rcases h.cases hp with hstep | ⟨q, hstep, hq, hlimit⟩
    · rw [climb_of_nil hstep, walk_stuck hstep hfresh stops bs (by omega)]
      simp
    · obtain ⟨fuel, rfl⟩ : ∃ fuel', fuel = fuel' + 1 := ⟨fuel - 1, by omega⟩
      have hseen' : ∀ r, q ≤ r → (seen.insert p).contains r = false := by
        intro r hr
        rw [Std.HashSet.contains_insert, hseen r (by omega), Bool.or_false, beq_eq_false_iff_ne]
        omega
      have hrest := ih stops (p :: bs) hlimit (by omega : limit - q ≤ n)
        (by rw [List.length_cons]; omega : 2 * n + 2 + (p :: bs).length ≤ fuel) hseen'
      rw [walk, id, hfresh, if_neg Bool.false_ne_true, hstep, climb_of_singleton hstep]
      simpa using hrest

theorem Unbranched.walkFrom_eq (h : Unbranched step limit) {p fuel : Nat} (hp : p ≤ limit)
    (hfuel : 2 * limit + 2 ≤ fuel) : walkFrom id true step fuel [p] = climb step limit p := by
  have hfuel' : 2 * limit + 2 + ([] : List Nat).length ≤ fuel := hfuel
  have hfresh : ∀ q, p ≤ q → ({} : Std.HashSet Nat).contains q = false := by simp
  have hwalk := h.walk_eq limit [] [] hp (Nat.sub_le limit p) hfuel' hfresh
  simpa [walkFrom] using hwalk

theorem le_walkFuel (text : Array UInt8) : 2 * text.size + 2 ≤ walkFuel text := by
  have h := Nat.mul_le_mul_right (text.size + 3) (Nat.le_add_left 3 text.size)
  unfold walkFuel
  omega

end Climb

section Tries

open Text

variable {β : Type} {text : Array UInt8} {start : Nat} {r s : Regex}

/-- What a continuation gives at the first of the ends of matches, in order of preference, where it
gives something. Places are given as suffixes of the text. -/
def tries (text : Array UInt8) (start : Nat) (r : Regex) (t : Bytes) (k : Bytes → Option β) :
    Option β :=
  (r.ends text start (placeOf text t)).findSome? fun q => k (text.toList.drop q)

theorem drop_placeOf {t : Bytes} (h : t <:+ text.toList) :
    text.toList.drop (placeOf text t) = t := by
  have hlength := length_le h
  obtain ⟨u, hu⟩ := h
  have htotal := congrArg List.length hu
  simp only [List.length_append, Array.length_toList] at htotal
  rw [← hu]
  exact List.drop_left' (by unfold placeOf; omega)

theorem placeOf_drop_toList {p : Nat} (hp : p ≤ text.size) :
    placeOf text (text.toList.drop p) = p := by
  simp only [placeOf, List.length_drop, Array.length_toList]
  omega

theorem mem_ends_le {p q : Nat} (hp : p ≤ text.size) (h : q ∈ r.ends text start p) :
    p ≤ q ∧ q ≤ text.size :=
  (matches_of_mem_ends h).bounds hp

theorem placeOf_le (t : Bytes) : placeOf text t ≤ text.size := Nat.sub_le _ _

/-- A search through the ends of matches may turn to suffixes at any time. -/
theorem findSome?_ends {p : Nat} (hp : p ≤ text.size) (k : Bytes → Option β) :
    (r.ends text start p).findSome? (fun q => k (text.toList.drop q)) =
      r.tries text start (text.toList.drop p) k := by
  unfold tries
  rw [placeOf_drop_toList hp]

theorem findSome?_congr {α : Type} {as : List α} {f g : α → Option β} (h : ∀ a ∈ as, f a = g a) :
    as.findSome? f = as.findSome? g := by
  induction as with
  | nil => rfl
  | cons a as ih =>
    rw [List.findSome?_cons, List.findSome?_cons, h a List.mem_cons_self,
      ih fun b hb => h b (List.mem_cons_of_mem a hb)]

theorem exists_of_tries {t : Bytes} {k : Bytes → Option β} {x : β} (ht : t <:+ text.toList)
    (h : r.tries text start t k = some x) :
    ∃ u, u <:+ t ∧ r.Matches text start (placeOf text t) (placeOf text u) ∧ k u = some x := by
  obtain ⟨q, hq, hx⟩ := List.exists_of_findSome?_eq_some h
  have hbounds := mem_ends_le (placeOf_le t) hq
  obtain ⟨u, hu, rfl⟩ := exists_suffix ht hbounds.1 hbounds.2
  rw [drop_placeOf (hu.trans ht)] at hx
  exact ⟨u, hu, matches_of_mem_ends hq, hx⟩

theorem tries_check {t : Bytes} {a : Assertion} {k : Bytes → Option β} (ht : t <:+ text.toList) :
    tries text start (.check a) t k =
      if a.holds text start (placeOf text t) then k t else none := by
  unfold tries
  simp only [ends]
  split
  · rw [List.findSome?_singleton, drop_placeOf ht]
  · rfl

theorem tries_chars_nil {c : CharClass} {k : Bytes → Option β} :
    tries text start (.chars c) [] k = none := by
  unfold tries
  simp only [ends, at?_nil]
  rfl

theorem tries_chars_ascii {c : CharClass} {b : UInt8} {t : Bytes} {k : Bytes → Option β}
    (ht : b :: t <:+ text.toList) (hb : b.toNat < 128) :
    tries text start (.chars c) (b :: t) k = if c.contains b.toNat then k t else none := by
  have hchar : (Char.ofNat b.toNat).toNat = b.toNat := by
    rw [Char.ofNat, dif_pos (.inl (by omega))]
    rfl
  have ht' : t <:+ text.toList := (List.suffix_cons b t).trans ht
  have hplace : placeOf text (b :: t) + 1 = placeOf text t :=
    (placeOf_drop ht (Nat.le_add_left 1 t.length)).symm
  unfold tries
  simp only [ends, at?_ascii ht hb, hchar, hplace]
  split
  · rw [List.findSome?_singleton, drop_placeOf ht']
  · rfl

/-- Outside ASCII, a class that contains all or nothing there needs no closer look. -/
theorem tries_chars_wide {c : CharClass} {b : UInt8} {t : Bytes} {k : Bytes → Option β}
    {all : Bool} (hc : ∀ n, 128 ≤ n → c.contains n = all) (ht : b :: t <:+ text.toList)
    (hb : 128 ≤ b.toNat) :
    ∃ n, 0 < n ∧ n ≤ (b :: t).length ∧ (∀ x ∈ (b :: t).take n, 128 ≤ x.toNat) ∧
      tries text start (.chars c) (b :: t) k = if all then k ((b :: t).drop n) else none := by
  obtain ⟨ch, n, hat, hch, hpos, hn, hwide⟩ := at?_wide ht hb
  refine ⟨n, hpos, hn, hwide, ?_⟩
  unfold tries
  simp only [ends, hat, hc _ hch]
  split
  · rw [List.findSome?_singleton, ← placeOf_drop ht hn,
      drop_placeOf ((List.drop_suffix n _).trans ht)]
  · rfl

theorem tries_seq {t : Bytes} {k : Bytes → Option β} :
    tries text start (.seq r s) t k = r.tries text start t fun u => s.tries text start u k := by
  have hends : tries text start (.seq r s) t k =
      (continueFrom id (r.ends text start (placeOf text t)) (s.ends text start)).findSome?
        fun q => k (text.toList.drop q) := rfl
  rw [hends, findSome?_continueFrom]
  refine findSome?_congr fun q hq => ?_
  exact findSome?_ends (mem_ends_le (placeOf_le t) hq).2 k

theorem tries_alt {t : Bytes} {k : Bytes → Option β} :
    tries text start (.alt r s) t k =
      (r.tries text start t k).or (s.tries text start t k) := by
  unfold tries
  simp only [ends]
  rw [findSome?_firsts_id, List.findSome?_append]

theorem tries_opt {t : Bytes} {k : Bytes → Option β} (ht : t <:+ text.toList) :
    tries text start (.opt true r) t k = (r.tries text start t k).or (k t) := by
  unfold tries
  simp only [ends, withStop, if_true]
  rw [findSome?_firsts_id, List.findSome?_append, List.findSome?_singleton, drop_placeOf ht]

/-- The end of the preferred match is the first at which a search goes on. -/
theorem head?_ends (t : Bytes) :
    (r.ends text (placeOf text t) (placeOf text t)).head? =
      (r.tries text (placeOf text t) t some).map (placeOf text) := by
  unfold tries
  cases hends : r.ends text (placeOf text t) (placeOf text t) with
  | nil => rfl
  | cons q qs =>
    have hq : q ≤ text.size := (mem_ends_le (placeOf_le t) (by rw [hends]; simp)).2
    simp [placeOf_drop_toList hq]

/-- The matcher looks at the ends of matches of an anchored expression only. -/
theorem findEnd?_eq {t : Bytes} (h : r.isAnchored = true) :
    r.findEnd? text (placeOf text t) =
      (r.tries text (placeOf text t) t some).map (placeOf text) := by
  unfold findEnd?
  rw [if_pos h, head?_ends]

end Tries

section Repetitions

open Text

variable {β : Type} {text : Array UInt8} {start : Nat} {r s : Regex}

theorem Matches.lt {p q : Nat} (h : r.Matches text start p q) (hr : r.isNullable = false)
    (hp : p ≤ text.size) : p < q := by
  induction r generalizing p q with
  | empty | check | opt | star => simp [isNullable] at hr
  | chars c =>
    obtain ⟨ch, width, hat, _, rfl⟩ := h
    have hwidth := Utf8.at?_width hat
    omega
  | seq r s ihr ihs =>
    obtain ⟨m, hm, hq⟩ := h
    have hpm := hm.bounds hp
    have hmq := hq.bounds hpm.2
    rw [isNullable, Bool.and_eq_false_iff] at hr
    rcases hr with hr | hs
    · have hlt := ihr hm hr hp
      omega
    · have hlt := ihs hq hs hpm.2
      omega
  | alt r s ihr ihs =>
    rw [isNullable, Bool.or_eq_false_iff] at hr
    rcases h with h | h
    · exact ihr h hr.1 hp
    · exact ihs h hr.2 hp
  | plus greedy r ih =>
    obtain ⟨n, hpos, hn⟩ := h
    exact hn.lt (fun a b hab ha => ⟨ih hab hr ha, (hab.bounds ha).2⟩) hpos hp
  | count greedy least most r ih =>
    obtain ⟨n, hleast, _, hn⟩ := h
    rw [isNullable, Bool.or_eq_false_iff, decide_eq_false_iff_not] at hr
    exact hn.lt (fun a b hab ha => ⟨ih hab hr.2 ha, (hab.bounds ha).2⟩) (by omega) hp

/-- An expression that matches in at most one way at every place of a text. -/
def Single (text : Array UInt8) (start : Nat) (r : Regex) : Prop :=
  ∀ p, p ≤ text.size → (r.ends text start p).length ≤ 1

theorem Single.unbranched (h : r.Single text start) (hr : r.isNullable = false) :
    Unbranched (r.ends text start) text.size := by
  intro p hp
  refine ⟨h p hp, fun q hq => ?_⟩
  have hmatch := matches_of_mem_ends hq
  exact ⟨hmatch.lt hr hp, (hmatch.bounds hp).2⟩

theorem single_chars (c : CharClass) : (chars c).Single text start := by
  intro p _
  simp only [ends]
  split
  · split <;> simp
  · simp

theorem Single.seq (hr : r.Single text start) (hs : s.Single text start) :
    (seq r s).Single text start := by
  intro p hp
  simp only [ends]
  exact length_continueFrom (hr p hp) fun q hq => hs q (mem_ends_le hp hq).2

/-- Alternatives that never match at the same place leave no choice. -/
theorem Single.alt (hr : r.Single text start) (hs : s.Single text start)
    (hdisjoint : ∀ p q q', r.Matches text start p q → ¬ s.Matches text start p q') :
    (alt r s).Single text start := by
  intro p hp
  simp only [ends]
  have hlength : (r.ends text start p ++ s.ends text start p).length ≤ 1 := by
    rw [List.length_append]
    have hrp := hr p hp
    have hsp := hs p hp
    rcases hr' : r.ends text start p with _ | ⟨q, qs⟩
    · rw [List.length_nil]
      omega
    · have hsnil : s.ends text start p = [] := by
        refine List.eq_nil_iff_forall_not_mem.mpr fun q' hq' => ?_
        have hq : q ∈ r.ends text start p := by simp [hr']
        exact hdisjoint p q q' (matches_of_mem_ends hq) (matches_of_mem_ends hq')
      rw [hsnil, ← hr', List.length_nil]
      omega
  rw [firsts_of_length hlength]
  exact hlength

theorem atMost_zero {α : Type} {key : α → Nat} {width fuel i : Nat} {greedy : Bool}
    {step : Nat → α → List α} (hfuel : 2 ≤ fuel) (a : α) :
    atMost key width fuel greedy step 0 i a = [a] := by
  obtain ⟨fuel, rfl⟩ : ∃ fuel', fuel = fuel' + 2 := ⟨fuel - 2, by omega⟩
  unfold atMost walkFrom
  cases greedy <;> cases fuel <;> simp [walk, firsts_singleton]

theorem ends_count {n p : Nat} {greedy : Bool} :
    ends text start (.count greedy n (some n) r) p =
      continueFrom id (exactly id (fun _ => r.ends text start) n 0 [p]) fun q => [q] := by
  have hfuel := Nat.mul_le_mul_right (walkFuel text) (Nat.le_add_left 1 n)
  have hwalk := le_walkFuel text
  simp only [ends, endsBetween, Nat.sub_self]
  congr 1
  funext q
  exact atMost_zero (by omega) q

theorem Single.count (hr : r.Single text start) (greedy : Bool) (n : Nat) :
    (count greedy n (some n) r).Single text start := by
  intro p hp
  rw [ends_count]
  refine length_continueFrom ?_ fun q _ => by simp
  suffices hexactly : ∀ (n i : Nat) (as : List Nat), (∀ a ∈ as, a ≤ text.size) → as.length ≤ 1 →
      (exactly id (fun _ => r.ends text start) n i as).length ≤ 1 by
    exact hexactly n 0 [p] (by simpa using hp) (by simp)
  intro n
  induction n with
  | zero => exact fun _ as _ has => has
  | succ n ih =>
    intro i as hle has
    refine ih (i + 1) _ ?_ (length_continueFrom has fun a ha => hr a (hle a ha))
    intro b hb
    obtain ⟨a, ha, hab⟩ := mem_continueFrom hb
    exact (mem_ends_le (hle a ha) hab).2

variable {k : Bytes → Option β} {t : Bytes}

theorem ends_star {p : Nat} (hr : r.Single text start) (hnull : r.isNullable = false)
    (hp : p ≤ text.size) :
    ends text start (.star true r) p = climb (r.ends text start) text.size p := by
  simp only [ends, hnull]
  exact (hr.unbranched hnull).walkFrom_eq hp (le_walkFuel text)

/-- A greedy repetition goes on while it can, and stops where nothing is found behind. -/
theorem tries_star (hr : r.Single text start) (hnull : r.isNullable = false)
    (ht : t <:+ text.toList) :
    tries text start (.star true r) t k =
      (r.tries text start t fun u => tries text start (.star true r) u k).or (k t) := by
  have hp : placeOf text t ≤ text.size := placeOf_le t
  have hunbranched := hr.unbranched hnull
  unfold tries
  rw [ends_star hr hnull hp]
  rcases hunbranched.cases hp with hstep | ⟨q, hstep, hq, hlimit⟩
  · rw [climb_of_nil hstep, hstep, List.findSome?_singleton, drop_placeOf ht]
    rfl
  · obtain ⟨n, hn⟩ : ∃ n, text.size = n + 1 := ⟨text.size - 1, by omega⟩
    have hclimb : climb (r.ends text start) text.size (placeOf text t) =
        climb (r.ends text start) text.size q ++ [placeOf text t] := by
      rw [hunbranched.climb_eq hlimit (Nat.sub_le _ _) (by omega : text.size - q ≤ n), hn]
      exact climb_of_singleton hstep n
    rw [hclimb, hstep, List.findSome?_append, List.findSome?_singleton, List.findSome?_singleton,
      drop_placeOf ht]
    dsimp only
    rw [placeOf_drop_toList hlimit, ends_star hr hnull hlimit]

theorem tries_plus (hr : r.Single text start) (hnull : r.isNullable = false) :
    tries text start (.plus true r) t k =
      r.tries text start t fun u => tries text start (.star true r) u k := by
  have hp : placeOf text t ≤ text.size := placeOf_le t
  unfold tries
  simp only [ends, hnull, Bool.false_eq_true, if_false]
  rcases (hr.unbranched hnull).cases hp with hstep | ⟨q, hstep, hq, hlimit⟩
  · rw [hstep]
    cases walkFuel text <;> rfl
  · rw [hstep, List.findSome?_singleton, placeOf_drop_toList hlimit]

/-- What a continuation gives behind a number of matches, one after another. -/
def triesTimes (text : Array UInt8) (start : Nat) (r : Regex) :
    (n : Nat) → (k : Bytes → Option β) → Bytes → Option β
  | 0, k => k
  | n + 1, k => fun t => r.tries text start t (triesTimes text start r n k)

theorem tries_count {n : Nat} {greedy : Bool} (ht : t <:+ text.toList) :
    tries text start (.count greedy n (some n) r) t k = triesTimes text start r n k t := by
  have hexactly : ∀ (n i : Nat) (as : List Nat), (∀ a ∈ as, a ≤ text.size) →
      (exactly id (fun _ => r.ends text start) n i as).findSome?
          (fun q => k (text.toList.drop q)) =
        as.findSome? fun a => triesTimes text start r n k (text.toList.drop a) := by
    intro n
    induction n with
    | zero => exact fun _ _ _ => rfl
    | succ n ih =>
      intro i as hle
      rw [exactly, ih, findSome?_continueFrom]
      · exact findSome?_congr fun a ha => findSome?_ends (hle a ha) _
      · intro b hb
        obtain ⟨a, ha, hab⟩ := mem_continueFrom hb
        exact (mem_ends_le (hle a ha) hab).2
  unfold tries
  rw [ends_count, findSome?_continueFrom]
  simp only [List.findSome?_singleton]
  rw [hexactly n 0 _ (by simpa using placeOf_le t), List.findSome?_singleton, drop_placeOf ht]

end Repetitions

section Narrow

open Text

variable {β : Type} {text : Array UInt8} {start : Nat} {c : CharClass} {t u : Bytes}
  {k : Bytes → Option β} {x : β}

def Narrow (c : CharClass) : Prop := ∀ n, 128 ≤ n → c.contains n = false

theorem narrow_ranges {intervals : List (Nat × Nat)} (h : ∀ i ∈ intervals, i.2 < 128) :
    Narrow (.ranges intervals) := by
  intro n hn
  simp only [CharClass.contains, List.any_eq_false, Bool.and_eq_true, decide_eq_true_eq, not_and,
    Nat.not_le]
  intro i hi _
  have hhigh := h i hi
  omega

theorem tries_narrow (hc : Narrow c) {b : UInt8} (ht : b :: t <:+ text.toList) :
    tries text start (.chars c) (b :: t) k = if c.contains b.toNat then k t else none := by
  rcases Nat.lt_or_ge b.toNat 128 with hb | hb
  · exact tries_chars_ascii ht hb
  · obtain ⟨_, _, _, _, htries⟩ := tries_chars_wide (k := k) hc ht hb
    rw [htries, hc _ hb]
    rfl

theorem tries_narrow_none (hc : Narrow c) (ht : t <:+ text.toList)
    (hhead : HeadNot (fun b => c.contains b.toNat) t) :
    tries text start (.chars c) t k = none := by
  cases t with
  | nil => exact tries_chars_nil
  | cons b t =>
    rw [tries_narrow hc ht, headNot_cons.mp hhead]
    rfl

theorem of_tries_narrow (hc : Narrow c) (ht : t <:+ text.toList)
    (h : tries text start (.chars c) t k = some x) :
    ∃ b u, t = b :: u ∧ c.contains b.toNat = true ∧ k u = some x := by
  cases t with
  | nil =>
    rw [tries_chars_nil] at h
    cases h
  | cons b t =>
    rw [tries_narrow hc ht] at h
    split at h
    · rename_i hb
      exact ⟨b, t, rfl, hb, h⟩
    · cases h

theorem tries_star_narrow (hc : Narrow c) {b : UInt8} (ht : b :: t <:+ text.toList) :
    tries text start (.star true (.chars c)) (b :: t) k =
      if c.contains b.toNat then
        (tries text start (.star true (.chars c)) t k).or (k (b :: t))
      else k (b :: t) := by
  rw [tries_star (single_chars c) rfl ht, tries_narrow hc ht]
  split <;> rfl

theorem of_tries_star_narrow (hc : Narrow c) (ht : t <:+ text.toList)
    (h : tries text start (.star true (.chars c)) t k = some x) :
    ∃ run u, t = run ++ u ∧ (∀ b ∈ run, c.contains b.toNat = true) ∧ k u = some x := by
  induction t with
  | nil =>
    rw [tries_star (single_chars c) rfl ht, tries_chars_nil] at h
    exact ⟨[], [], rfl, by simp, h⟩
  | cons b t ih =>
    rw [tries_star_narrow hc ht] at h
    split at h
    · rename_i hb
      rcases Option.or_eq_some_iff.mp h with h | ⟨_, h⟩
      · obtain ⟨run, u, rfl, hrun, hu⟩ := ih ((List.suffix_cons b t).trans ht) h
        exact ⟨b :: run, u, rfl, by simpa using ⟨hb, hrun⟩, hu⟩
      · exact ⟨[], b :: t, rfl, by simp, h⟩
    · exact ⟨[], b :: t, rfl, by simp, h⟩

/-- A greedy repetition takes the whole run of bytes of its class, if one can go on behind. -/
theorem tries_star_run (hc : Narrow c) {run : Bytes} (ht : run ++ u <:+ text.toList)
    (hrun : ∀ b ∈ run, c.contains b.toNat = true)
    (hhead : HeadNot (fun b => c.contains b.toNat) u) (hu : k u = some x) :
    tries text start (.star true (.chars c)) (run ++ u) k = some x := by
  induction run with
  | nil =>
    rw [List.nil_append] at ht ⊢
    rw [tries_star (single_chars c) rfl ht, tries_narrow_none hc ht hhead]
    exact hu
  | cons b run ih =>
    have hrest := ih ((List.suffix_cons b _).trans ht) fun b hb =>
      hrun b (List.mem_cons_of_mem _ hb)
    rw [List.cons_append] at ht ⊢
    rw [tries_star_narrow hc ht, if_pos (hrun b List.mem_cons_self), hrest]
    rfl

theorem of_tries_plus_narrow (hc : Narrow c) (ht : t <:+ text.toList)
    (h : tries text start (.plus true (.chars c)) t k = some x) :
    ∃ run u, t = run ++ u ∧ run ≠ [] ∧ (∀ b ∈ run, c.contains b.toNat = true) ∧ k u = some x := by
  rw [tries_plus (single_chars c) rfl] at h
  obtain ⟨b, t, rfl, hb, h⟩ := of_tries_narrow hc ht h
  obtain ⟨run, u, rfl, hrun, hu⟩ :=
    of_tries_star_narrow hc ((List.suffix_cons b t).trans ht) h
  exact ⟨b :: run, u, rfl, by simp, by simpa using ⟨hb, hrun⟩, hu⟩

theorem tries_plus_run (hc : Narrow c) {run : Bytes} (ht : run ++ u <:+ text.toList)
    (hne : run ≠ []) (hrun : ∀ b ∈ run, c.contains b.toNat = true)
    (hhead : HeadNot (fun b => c.contains b.toNat) u) (hu : k u = some x) :
    tries text start (.plus true (.chars c)) (run ++ u) k = some x := by
  cases run with
  | nil => exact absurd rfl hne
  | cons b run =>
    rw [List.cons_append] at ht ⊢
    rw [tries_plus (single_chars c) rfl, tries_narrow hc ht, if_pos (hrun b List.mem_cons_self)]
    refine tries_star_run hc ((List.suffix_cons b _).trans ht) ?_ hhead hu
    exact fun b hb => hrun b (List.mem_cons_of_mem _ hb)

end Narrow

section Single

open Text

variable {β : Type} {text : Array UInt8} {start : Nat} {t u : Bytes} {k : Bytes → Option β} {x : β}

theorem suffix_of_append {s v : Bytes} (h : s ++ v <:+ text.toList) : v <:+ text.toList :=
  (List.suffix_append s v).trans h

theorem contains_single {c : Char} {n : Nat} :
    (CharClass.single c).contains n = true ↔ n = c.toNat := by
  simp only [CharClass.single, CharClass.contains, List.any_cons, List.any_nil, Bool.or_false,
    Bool.and_eq_true, decide_eq_true_eq]
  omega

theorem narrow_single {c : Char} (hc : c.toNat < 128) : Narrow (.single c) :=
  narrow_ranges (by simpa using hc)

theorem of_tries_single {c : Char} (hc : c.toNat < 128) (ht : t <:+ text.toList)
    (h : tries text start (.chars (.single c)) t k = some x) :
    ∃ u, t = Bytes.ascii c :: u ∧ k u = some x := by
  obtain ⟨b, u, rfl, hb, hu⟩ := of_tries_narrow (narrow_single hc) ht h
  rw [contains_single] at hb
  have hbyte : b = Bytes.ascii c := by
    rw [Bytes.ascii, ← hb]
    exact (UInt8.ofNat_toNat).symm
  exact ⟨u, by rw [hbyte], hu⟩

theorem tries_single {c : Char} (hc : c.toNat < 128) (ht : Bytes.ascii c :: u <:+ text.toList) :
    tries text start (.chars (.single c)) (Bytes.ascii c :: u) k = k u := by
  have hmod : (Bytes.ascii c).toNat = c.toNat := by
    simp only [Bytes.ascii, Nat.toUInt8, UInt8.toNat_ofNat']
    omega
  rw [tries_narrow (narrow_single hc) ht, if_pos (contains_single.mpr hmod)]

theorem tries_check_start (ht : t <:+ text.toList) :
    tries text (placeOf text t) (.check .beginText) t k = k t := by
  rw [tries_check ht, Assertion.holds, decide_eq_true rfl]
  rfl

theorem tries_anchor {r : Regex} (ht : t <:+ text.toList) :
    tries text (placeOf text t) (.seq (.check .beginText) r) t k =
      r.tries text (placeOf text t) t k := by
  rw [tries_seq, tries_check_start ht]

end Single

end Regex

end Backtrack
