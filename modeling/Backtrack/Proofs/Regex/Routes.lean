import Mathlib.Data.List.Basic
import Backtrack.Proofs.Regex.Matching

/-!
# Routes of matches

A match makes choices on its way: at a place it goes one way at a choice with a number. A route says
which choices, in order, can lead from one place to another. Two matches that make the same choice
at the same place can cross over there: the first half of one goes on as the second half of the
other. So nothing is lost if a match never makes a choice twice at one place.

This module does NOT say which routes the matcher explores.
-/

namespace Backtrack.Regex

/-- How a match can lead from a place to another one: the places and the numbers of its choices. -/
abbrev Route := Nat → List (Nat × Nat) → Nat → Prop

/-- What holds of the routes of an expression whose choices have numbers from `lo` up to `hi`, in a
text of the given size. -/
structure Lawful (size lo hi : Nat) (T : Route) : Prop where
  bounds : ∀ {p l q}, T p l q → p ≤ size → (p ≤ q ∧ q ≤ size) ∧ ∀ x ∈ l, p ≤ x.1 ∧ x.1 ≤ q
  numbers : ∀ {p l q}, T p l q → ∀ x ∈ l, lo ≤ x.2 ∧ x.2 < hi
  cross : ∀ {p q p' q' l₁ l₂ l₁' l₂' x}, T p (l₁ ++ x :: l₂) q → T p' (l₁' ++ x :: l₂') q' →
    T p (l₁ ++ x :: l₂') q'

section Splitting

variable {α : Type} {l₁ l₂ as bs : List α} {x : α}

/-- An element of a joined list stands in one of the two. -/
theorem split_append (h : l₁ ++ x :: l₂ = as ++ bs) :
    (∃ cs, as = l₁ ++ x :: cs ∧ l₂ = cs ++ bs) ∨ ∃ cs, l₁ = as ++ cs ∧ bs = cs ++ x :: l₂ := by
  rcases List.append_eq_append_iff.mp h with ⟨cs, has, hbs⟩ | ⟨cs, hl, hbs⟩
  · rcases cs with _ | ⟨y, cs⟩
    · right
      exact ⟨[], by simpa using has.symm, hbs.symm⟩
    · left
      rw [List.cons_append, List.cons.injEq] at hbs
      exact ⟨cs, by rw [has, hbs.1], hbs.2⟩
  · exact .inr ⟨cs, hl, hbs⟩

end Splitting

namespace Route

def plain (M : Nat → Nat → Prop) : Route := fun p l q => l = [] ∧ M p q

def skip : Route := plain Eq

def chained (T S : Route) : Route := fun p l q =>
  ∃ m l₁ l₂, l = l₁ ++ l₂ ∧ T p l₁ m ∧ S m l₂ q

def either (T S : Route) : Route := fun p l q => T p l q ∨ S p l q

def choice (n : Nat) (T : Route) : Route := fun p l q => ∃ l', l = (p, n) :: l' ∧ T p l' q

inductive Laps (n : Nat) (T : Route) : Route where
  | nil (p : Nat) : Laps n T p [] p
  | cons {p m q : Nat} {l l' : List (Nat × Nat)} :
    T p l m → Laps n T m l' q → Laps n T p (l ++ (m, n) :: l') q

def loop (n : Nat) (T : Route) : Route := fun p l q => Laps n T p l q ∧ l ≠ []

/-- Any number of laps, with the same choice in front and behind each. -/
def run (n : Nat) (T : Route) : Route := choice n (Laps n T)

def copies (T : Nat → Route) : Nat → Route
  | 0 => skip
  | n + 1 => chained (copies T n) (T n)

/-- At most `n` one after another, numbered from `i` on. -/
def options (T : Nat → Route) : (n i : Nat) → Route
  | 0, _ => skip
  | n + 1, i => either skip (chained (T i) (options T n (i + 1)))

/-- The choice in front of a match that may be left out: one of those with numbers below `most`. -/
def enter (number : Nat → Nat) (most i : Nat) : Route :=
  if i < most then choice (number i) skip else skip

def counted (number : Nat → Nat) (least most : Nat) (T : Nat → Route) : Route :=
  chained (copies T least) (chained (enter number most least)
    (options (fun i => chained (T i) (enter number most (i + 1))) (most - least) least))

end Route

namespace Lawful

open Route

variable {size lo mid hi n : Nat} {T S : Route}

theorem mono {lo' hi' : Nat} (h : Lawful size lo hi T) (hlo : lo' ≤ lo) (hhi : hi ≤ hi') :
    Lawful size lo' hi' T := by
  refine ⟨h.bounds, ?_, h.cross⟩
  intro p l q ht x hx
  have hnumbers := h.numbers ht x hx
  omega

/-- A choice is an inner one or not, whatever match makes it. -/
theorem number_of_mem (h : Lawful size lo hi T) {p q : Nat} {l₁ l₂ : List (Nat × Nat)}
    {x : Nat × Nat} (ht : T p (l₁ ++ x :: l₂) q) : lo ≤ x.2 ∧ x.2 < hi :=
  h.numbers ht x (by simp)

theorem fresh (h : Lawful size (n + 1) hi T) {p q : Nat} {l : List (Nat × Nat)} (_ : p ≤ size)
    (ht : T p l q) : (p, n) ∉ l := by
  intro hmem
  have hx := h.numbers ht _ hmem
  omega

theorem plain {M : Nat → Nat → Prop} (hM : ∀ p q, M p q → p ≤ size → p ≤ q ∧ q ≤ size) :
    Lawful size lo hi (plain M) := by
  constructor
  · rintro p l q ⟨rfl, h⟩ hp
    exact ⟨hM p q h hp, by simp⟩
  · rintro p l q ⟨rfl, h⟩
    simp
  · rintro p q p' q' l₁ l₂ l₁' l₂' x ⟨h, -⟩
    simp at h

theorem skip : Lawful size lo hi skip := by
  apply plain
  rintro p q rfl hp
  exact ⟨Nat.le_refl p, hp⟩

theorem chained (hT : Lawful size lo mid T) (hS : Lawful size mid hi S) (hlo : lo ≤ mid)
    (hhi : mid ≤ hi) : Lawful size lo hi (chained T S) := by
  constructor
  · rintro p l q ⟨m, l₁, l₂, rfl, ht, hs⟩ hp
    obtain ⟨hm, hl₁⟩ := hT.bounds ht hp
    obtain ⟨hq, hl₂⟩ := hS.bounds hs hm.2
    refine ⟨by omega, ?_⟩
    intro x hx
    rcases List.mem_append.mp hx with hx | hx
    · have hx := hl₁ x hx
      omega
    · have hx := hl₂ x hx
      omega
  · rintro p l q ⟨m, l₁, l₂, rfl, ht, hs⟩ x hx
    rcases List.mem_append.mp hx with hx | hx
    · have hx := hT.numbers ht x hx
      omega
    · have hx := hS.numbers hs x hx
      omega
  · rintro p q p' q' l₁ l₂ l₁' l₂' x ⟨m, as, bs, hl, ht, hs⟩ ⟨m', as', bs', hl', ht', hs'⟩
    rcases split_append hl with ⟨cs, rfl, rfl⟩ | ⟨cs, rfl, rfl⟩
    · rcases split_append hl' with ⟨cs', rfl, rfl⟩ | ⟨cs', rfl, rfl⟩
      · exact ⟨m', l₁ ++ x :: cs', bs', by simp, hT.cross ht ht', hs'⟩
      · have hx := hT.number_of_mem ht
        have hx' := hS.number_of_mem hs'
        omega
    · rcases split_append hl' with ⟨cs', rfl, rfl⟩ | ⟨cs', rfl, rfl⟩
      · have hx := hS.number_of_mem hs
        have hx' := hT.number_of_mem ht'
        omega
      · exact ⟨m, as, cs ++ x :: l₂', by simp, ht, hS.cross hs hs'⟩

theorem either (hT : Lawful size lo mid T) (hS : Lawful size mid hi S) (hlo : lo ≤ mid)
    (hhi : mid ≤ hi) : Lawful size lo hi (either T S) := by
  constructor
  · rintro p l q (ht | hs) hp
    · exact hT.bounds ht hp
    · exact hS.bounds hs hp
  · rintro p l q (ht | hs) x hx
    · have hx := hT.numbers ht x hx
      omega
    · have hx := hS.numbers hs x hx
      omega
  · rintro p q p' q' l₁ l₂ l₁' l₂' x (ht | hs) (ht' | hs')
    · exact .inl (hT.cross ht ht')
    · have hx := hT.number_of_mem ht
      have hx' := hS.number_of_mem hs'
      omega
    · have hx := hS.number_of_mem hs
      have hx' := hT.number_of_mem ht'
      omega
    · exact .inr (hS.cross hs hs')

theorem choice (hT : Lawful size (n + 1) hi T) (hn : n < hi) : Lawful size n hi (choice n T) := by
  constructor
  · rintro p l q ⟨l, rfl, ht⟩ hp
    obtain ⟨hq, hl⟩ := hT.bounds ht hp
    exact ⟨hq, List.forall_mem_cons.mpr ⟨⟨Nat.le_refl p, hq.1⟩, hl⟩⟩
  · rintro p l q ⟨l, rfl, ht⟩
    refine List.forall_mem_cons.mpr ⟨⟨Nat.le_refl n, hn⟩, fun x hx => ?_⟩
    have hx := hT.numbers ht x hx
    omega
  · rintro p q p' q' l₁ l₂ l₁' l₂' x ⟨l, hl, ht⟩ ⟨l', hl', ht'⟩
    rcases List.append_eq_cons_iff.mp hl with ⟨rfl, hx⟩ | ⟨l₁, rfl, rfl⟩
    · obtain ⟨rfl, rfl⟩ := List.cons.inj hx
      rcases List.append_eq_cons_iff.mp hl' with ⟨rfl, hx'⟩ | ⟨l₁', rfl, rfl⟩
      · obtain ⟨hplace, rfl⟩ := List.cons.inj hx'
        cases hplace
        exact ⟨l₂', rfl, ht'⟩
      · have hx := hT.number_of_mem ht'
        omega
    · rcases List.append_eq_cons_iff.mp hl' with ⟨rfl, hx'⟩ | ⟨l₁', rfl, rfl⟩
      · obtain ⟨rfl, rfl⟩ := List.cons.inj hx'
        have hx := hT.number_of_mem ht
        omega
      · exact ⟨l₁ ++ x :: l₂', rfl, hT.cross ht ht'⟩

/-- What can follow a choice inside some laps: the rest of the laps if it is the one behind a lap,
or else the rest of its lap in front of that. -/
def After (n : Nat) (T : Route) (x : Nat × Nat) (l : List (Nat × Nat)) (q : Nat) : Prop :=
  (x.2 = n ∧ Laps n T x.1 l q) ∨ ∃ p l₁ l₂ m l', T p (l₁ ++ x :: l₂) m ∧ Laps n T m l' q ∧
    l = l₂ ++ (m, n) :: l'

theorem after_of_laps {p q : Nat} {l : List (Nat × Nat)} (h : Laps n T p l q) :
    ∀ {l₁ l₂ x}, l = l₁ ++ x :: l₂ → After n T x l₂ q := by
  induction h with
  | nil p =>
    intro l₁ l₂ x h
    simp at h
  | @cons p m q l l' ht hlaps ih =>
    intro l₁ l₂ x h
    rcases split_append h.symm with ⟨cs, rfl, rfl⟩ | ⟨cs, rfl, hl'⟩
    · exact .inr ⟨p, l₁, cs, m, l', ht, hlaps, rfl⟩
    · rcases List.append_eq_cons_iff.mp hl'.symm with ⟨rfl, hx⟩ | ⟨cs, rfl, hl'⟩
      · obtain ⟨rfl, rfl⟩ := List.cons.inj hx
        exact .inl ⟨rfl, hlaps⟩
      · exact ih (List.cons.inj hl').2

/-- Laps up to a choice go on with whatever can follow it. -/
theorem laps_of_after (hT : Lawful size (n + 1) hi T) {p q : Nat} {l : List (Nat × Nat)}
    (h : Laps n T p l q) : ∀ {l₁ l₂ x l₂' q'}, l = l₁ ++ x :: l₂ → After n T x l₂' q' →
      Laps n T p (l₁ ++ x :: l₂') q' := by
  induction h with
  | nil p =>
    intro l₁ l₂ x l₂' q' h
    simp at h
  | @cons p m q l l' ht hlaps ih =>
    intro l₁ l₂ x l₂' q' h hafter
    rcases split_append h.symm with ⟨cs, rfl, rfl⟩ | ⟨cs, rfl, hl'⟩
    · have hx := hT.number_of_mem ht
      rcases hafter with ⟨hn, -⟩ | ⟨p', as, bs, m', l'', ht', hlaps', rfl⟩
      · omega
      · have h := Laps.cons (hT.cross ht ht') hlaps'
        rwa [List.append_assoc, List.cons_append] at h
    · rcases List.append_eq_cons_iff.mp hl'.symm with ⟨rfl, hx⟩ | ⟨cs, rfl, hl'⟩
      · obtain ⟨rfl, rfl⟩ := List.cons.inj hx
        rw [List.append_nil]
        rcases hafter with ⟨-, hlaps'⟩ | ⟨p', as, bs, m', l'', ht', -⟩
        · exact .cons ht hlaps'
        · have hx := hT.number_of_mem ht'
          omega
      · have h := Laps.cons ht (ih (List.cons.inj hl').2 hafter)
        rwa [List.append_assoc, List.cons_append]

theorem laps (hT : Lawful size (n + 1) hi T) (hn : n < hi) : Lawful size n hi (Laps n T) := by
  constructor
  · intro p l q h
    induction h with
    | nil p => exact fun hp => ⟨⟨Nat.le_refl p, hp⟩, by simp⟩
    | cons ht _ ih =>
      intro hp
      obtain ⟨hm, hl⟩ := hT.bounds ht hp
      obtain ⟨hq, hl'⟩ := ih hm.2
      refine ⟨by omega, List.forall_mem_append.mpr ⟨?_, List.forall_mem_cons.mpr ⟨by omega, ?_⟩⟩⟩
      · intro x hx
        have hx := hl x hx
        omega
      · intro x hx
        have hx := hl' x hx
        omega
  · intro p l q h
    induction h with
    | nil p => simp
    | cons ht _ ih =>
      refine List.forall_mem_append.mpr ⟨?_, List.forall_mem_cons.mpr ⟨⟨Nat.le_refl n, hn⟩, ih⟩⟩
      intro x hx
      have hx := hT.numbers ht x hx
      omega
  · intro p q p' q' l₁ l₂ l₁' l₂' x h h'
    exact laps_of_after hT h rfl (after_of_laps h' rfl)

theorem loop (hT : Lawful size (n + 1) hi T) (hn : n < hi) : Lawful size n hi (loop n T) := by
  have hlaps := hT.laps hn
  exact ⟨fun h => hlaps.bounds h.1, fun h => hlaps.numbers h.1,
    fun h h' => ⟨hlaps.cross h.1 h'.1, by simp⟩⟩

theorem run (hT : Lawful size (n + 1) hi T) (hn : n < hi) : Lawful size n hi (run n T) := by
  have hlaps := hT.laps hn
  constructor
  · rintro p l q ⟨l, rfl, h⟩ hp
    obtain ⟨hq, hl⟩ := hlaps.bounds h hp
    exact ⟨hq, List.forall_mem_cons.mpr ⟨⟨Nat.le_refl p, hq.1⟩, hl⟩⟩
  · rintro p l q ⟨l, rfl, h⟩
    exact List.forall_mem_cons.mpr ⟨⟨Nat.le_refl n, hn⟩, hlaps.numbers h⟩
  · rintro p q p' q' l₁ l₂ l₁' l₂' x ⟨l, hl, h⟩ ⟨l', hl', h'⟩
    have hafter : After n T x l₂' q' := by
      rcases List.append_eq_cons_iff.mp hl' with ⟨rfl, hx⟩ | ⟨l₁', rfl, rfl⟩
      · obtain ⟨rfl, rfl⟩ := List.cons.inj hx
        exact .inl ⟨rfl, h'⟩
      · exact after_of_laps h' rfl
    rcases List.append_eq_cons_iff.mp hl with ⟨rfl, hx⟩ | ⟨l₁, rfl, rfl⟩
    · obtain ⟨rfl, rfl⟩ := List.cons.inj hx
      refine ⟨l₂', rfl, ?_⟩
      rcases hafter with ⟨-, hlaps'⟩ | ⟨p', as, bs, m', l'', ht', -⟩
      · exact hlaps'
      · have hx := hT.number_of_mem ht'
        omega
    · exact ⟨l₁ ++ x :: l₂', rfl, laps_of_after hT h rfl hafter⟩

section Counted

variable {number : Nat → Nat} {Ts : Nat → Route}

section Chains

variable (hnumber : ∀ i, number i ≤ number (i + 1))
variable (hTs : ∀ i, Lawful size (number i) (number (i + 1)) (Ts i))
include hnumber

theorem number_le (i n : Nat) : number i ≤ number (i + n) := by
  induction n with
  | zero => exact Nat.le_refl _
  | succ n ih => exact Nat.le_trans ih (hnumber (i + n))

include hTs

theorem copies (n : Nat) : Lawful size (number 0) (number n) (copies Ts n) := by
  induction n with
  | zero => exact skip
  | succ n ih =>
    have hle := number_le hnumber 0 n
    rw [Nat.zero_add] at hle
    exact ih.chained (hTs n) hle (hnumber n)

theorem options (n i : Nat) : Lawful size (number i) (number (i + n)) (options Ts n i) := by
  induction n generalizing i with
  | zero => exact skip
  | succ n ih =>
    show Lawful size (number i) (number (i + n + 1)) _
    have hle := number_le hnumber (i + 1) n
    have hrest := ih (i + 1)
    rw [Nat.add_right_comm] at hle hrest
    have hmore := (hTs i).chained hrest (hnumber i) hle
    exact either skip hmore (Nat.le_refl _) (Nat.le_trans (hnumber i) hle)

end Chains

section Between

variable (hnumber : ∀ i, number i < number (i + 1))
variable (hTs : ∀ i, Lawful size (number i + 1) (number (i + 1)) (Ts i))

theorem enter (most i : Nat) : Lawful size (number i) (number i + 1) (enter number most i) := by
  unfold Route.enter
  split
  · exact choice skip (Nat.lt_succ_self _)
  · exact skip

include hTs

theorem whole (i : Nat) : Lawful size (number i) (number (i + 1)) (Ts i) :=
  (hTs i).mono (Nat.le_succ _) (Nat.le_refl _)

include hnumber

theorem optional (most i : Nat) : Lawful size (number i + 1) (number (i + 1) + 1)
    (Route.chained (Ts i) (Route.enter number most (i + 1))) :=
  (hTs i).chained (enter most (i + 1)) (hnumber i) (Nat.le_succ _)

theorem counted (least most : Nat) :
    Lawful size (number 0) (number (least + (most - least)) + 1)
      (counted number least most Ts) := by
  have hle : ∀ i, number i ≤ number (i + 1) := fun i => Nat.le_of_lt (hnumber i)
  have hrest := number_le hle least (most - least)
  have hfirst := number_le hle 0 least
  rw [Nat.zero_add] at hfirst
  have hoptions : Lawful size (number least + 1) (number (least + (most - least)) + 1) _ :=
    options (fun i => Nat.succ_le_succ (hle i)) (optional hnumber hTs most) (most - least) least
  exact (copies hle (whole hTs) least).chained
    ((enter most least).chained hoptions (Nat.le_succ _) (by omega)) hfirst (by omega)

end Between

end Counted

end Lawful

end Backtrack.Regex
