import Backtrack.Regex.Read

/-!
# Accounts of what is built

A pattern is refused when the account of what it is built of runs too high. The account decides
about nothing else: what can be built on one account can be built on any that is no worse, and comes
out the same. So a pattern that is accepted inside a larger one is accepted alone.

This module does NOT say which patterns are refused.
-/

namespace Backtrack.Regex

variable {α β : Type}

/-- One account of what has been built is no worse than another: as far as either can refuse a tree,
the first refuses no more. -/
structure Budget.Within (b b' : Budget) : Prop where
  made : b.made ≤ b'.made
  spare : b.spare = b'.spare
  bounds : b.bounds = b'.bounds
  /-- Once the second one weighs trees, the product of repetitions no longer counts. -/
  repeats : b'.weighs = false → b.weighs = false ∧ b.repeats = b'.repeats

/-- What succeeds on a larger account succeeds on a smaller one, with the same result. -/
def Steady (m : Building α) : Prop :=
  ∀ b b' : Budget, b.Within b' → ∀ a c', m.run b' = .ok (a, c') →
    ∃ c, m.run b = .ok (a, c) ∧ c.Within c'

theorem run_bind {m : Building α} {f : α → Building β} {b d : Budget} {x : β} :
    (m >>= f).run b = .ok (x, d) ↔ ∃ a c, m.run b = .ok (a, c) ∧ (f a).run c = .ok (x, d) := by
  rw [StateT.run_bind]
  cases h : m.run b with
  | error e =>
    constructor
    · intro h
      cases h
    · rintro ⟨a, c, h, _⟩
      cases h
  | ok r =>
    obtain ⟨a, c⟩ := r
    constructor
    · intro h
      exact ⟨a, c, rfl, h⟩
    · rintro ⟨a', c', h, hf⟩
      cases h
      exact hf

namespace Steady

variable {m : Building α} {f : α → Building β}

theorem pure (a : α) : Steady (pure a) := by
  intro b b' hb a' c' h
  cases h
  exact ⟨b, rfl, hb⟩

theorem bind (hm : Steady m) (hf : ∀ a, Steady (f a)) : Steady (m >>= f) := by
  intro b b' hb x d' h
  obtain ⟨a, c', hrun, h⟩ := run_bind.mp h
  obtain ⟨c, hrun, hc⟩ := hm b b' hb a c' hrun
  obtain ⟨d, h, hd⟩ := hf a c c' hc x d' h
  exact ⟨d, run_bind.mpr ⟨a, c, hrun, h⟩, hd⟩

theorem lift (m : Reading α) : Steady (m : Building α) := by
  intro b b' hb a c' h
  cases m with
  | error e => cases h
  | ok x =>
    cases h
    exact ⟨b, rfl, hb⟩

theorem modify {g : Budget → Budget} (hg : ∀ b b' : Budget, b.Within b' → (g b).Within (g b')) :
    Steady (modify g) := by
  intro b b' hb a c' h
  cases h
  exact ⟨g b, rfl, hg b b' hb⟩

theorem ite {c : Prop} [Decidable c] {m m' : Building α} (hm : Steady m) (hm' : Steady m') :
    Steady (if c then m else m') := by
  split
  · exact hm
  · exact hm'

/-- A step that is left out on a condition, before others. -/
theorem guarded {c : Prop} [Decidable c] {m : Building Unit} {k : Unit → Building α}
    (hm : Steady m) (hk : ∀ u, Steady (k u)) :
    Steady (if c then m >>= k else k ()) := ite (hm.bind hk) (hk ())

theorem mapM {f : α → Building β} (hf : ∀ a, Steady (f a)) (as : List α) : Steady (as.mapM f) := by
  induction as with
  | nil => exact .pure []
  | cons a as ih =>
    rw [List.mapM_cons]
    refine .bind (hf a) fun b => .bind ih fun bs => .pure (b :: bs)

end Steady

namespace Budget

theorem steady_make : Steady make := by
  apply Steady.modify
  intro b b' hb
  rw [← hb.spare]
  split
  · exact ⟨hb.made, by rw [hb.spare], hb.bounds, hb.repeats⟩
  · exact ⟨Nat.succ_le_succ hb.made, rfl, hb.bounds, hb.repeats⟩

theorem steady_release (n : Nat) : Steady (release n) := by
  apply Steady.modify
  intro b b' hb
  exact ⟨hb.made, congrArg (· + n) hb.spare, hb.bounds, hb.repeats⟩

section Note

variable {b b' : Budget} {t : Tree}

@[simp]
theorem note_made : (b.note t).made = b.made := by
  unfold note
  split <;> rfl

@[simp]
theorem note_spare : (b.note t).spare = b.spare := by
  unfold note
  split <;> rfl

@[simp]
theorem note_bounds : (b.note t).bounds = b.bounds := by
  unfold note
  split <;> rfl

theorem note_weighs (h : b.weighs = true) : b.note t = b := by
  rw [note, if_pos h]

theorem Within.weighs (h : b.Within b') (hw : b.weighs = true) : b'.weighs = true := by
  cases hw' : b'.weighs with
  | true => rfl
  | false =>
    rw [(h.repeats hw').1] at hw
    cases hw

theorem Within.note (h : b.Within b') : (b.note t).Within (b'.note t) := by
  refine ⟨by simpa using h.made, by simpa using h.spare, by simpa using h.bounds, ?_⟩
  intro hw
  cases hw' : b'.weighs with
  | true =>
    rw [note_weighs hw', hw'] at hw
    cases hw
  | false =>
    obtain ⟨hweighs, hrepeats⟩ := h.repeats hw'
    have hmade := h.made
    unfold Budget.note at hw ⊢
    rw [hw', if_neg Bool.false_ne_true] at hw
    rw [hweighs, hw', if_neg Bool.false_ne_true, if_neg Bool.false_ne_true, hrepeats]
    simp only [decide_eq_false_iff_not, Nat.not_le] at hw ⊢
    exact ⟨Nat.lt_of_le_of_lt hmade hw, trivial⟩

theorem check_eq_ok {u : Unit} {c : Budget} : (check t).run b = .ok (u, c) ↔
    b.bounds ≤ boundLimit ∧ ((b.note t).weighs = true → t.size ≤ sizeLimit) ∧
      t.height ≤ heightLimit ∧ c = b.note t := by
  unfold check
  simp only [StateT.run_bind, StateT.run_get, pure_bind]
  by_cases hbounds : boundLimit < b.bounds
  · rw [if_pos hbounds]
    constructor
    · intro h
      cases h
    · rintro ⟨h, -⟩
      omega
  rw [if_neg hbounds, StateT.run_bind, StateT.run_set, pure_bind]
  by_cases hsize : ((b.note t).weighs && decide (sizeLimit < t.size)) = true
  · rw [if_pos hsize]
    simp only [Bool.and_eq_true, decide_eq_true_eq] at hsize
    constructor
    · intro h
      cases h
    · rintro ⟨-, h, -⟩
      have := h hsize.1
      omega
  rw [if_neg hsize]
  simp only [Bool.and_eq_true, decide_eq_true_eq, not_and, Nat.not_lt] at hsize
  by_cases hheight : heightLimit < t.height
  · rw [if_pos hheight]
    constructor
    · intro h
      cases h
    · rintro ⟨-, -, h, -⟩
      omega
  rw [if_neg hheight]
  constructor
  · intro h
    cases h
    exact ⟨by omega, hsize, by omega, rfl⟩
  · rintro ⟨-, -, -, rfl⟩
    rfl

end Note

theorem steady_check (t : Tree) : Steady (check t) := by
  intro b b' hb u c' h
  obtain ⟨hbounds, hsize, hheight, rfl⟩ := check_eq_ok.mp h
  refine ⟨b.note t, check_eq_ok.mpr ⟨?_, fun hw => hsize ?_, hheight, rfl⟩, hb.note⟩
  · rw [hb.bounds]
    exact hbounds
  · exact hb.note.weighs hw

theorem steady_enter (t : Tree) : Steady (enter t) := by
  refine .bind (.modify ?_) fun _ => steady_check t
  intro b b' hb
  exact ⟨hb.made, hb.spare, congrArg (· + listed t) hb.bounds, hb.repeats⟩

end Budget

section Trees

open Budget Regex.Tree

theorem steady_dropLeadingCodes (n : Nat) (t : Tree) : Steady (t.dropLeadingCodes n) := by
  unfold dropLeadingCodes
  split
  · split
    · exact .bind (steady_release 2) fun _ => .pure _
    · exact .bind (steady_release 1) fun _ => .pure _
    · exact .pure _
  · exact .pure _

theorem steady_dropLeading (kept : Bool) (t : Tree) : Steady (t.dropLeading kept) := by
  unfold dropLeading
  split
  · refine .bind (steady_release _) fun _ => ?_
    split
    · exact .bind (steady_release 1) fun _ => .pure _
    · exact .pure _
  · exact .bind (steady_release _) fun _ => .bind steady_make fun _ => .pure _

theorem steady_mergeClasses (ts : List Tree) : Steady (mergeClasses ts) := by
  induction ts with
  | nil => exact .pure []
  | cons t ts ih =>
    refine .bind ih fun merged => ?_
    split
    · split
      · exact .bind (steady_release 1) fun _ => .pure _
      · exact .pure _
    · exact .pure _

theorem steady_tails {drop : Tree → Building Tree} (hdrop : ∀ t, Steady (drop t)) (ts : List Tree) :
    Steady (ts.mapM fun t => do
      let tail ← drop t
      Budget.check tail
      return tail) :=
  .mapM (fun t => .bind (hdrop t) fun tail => .bind (steady_check tail) fun _ => .pure tail) ts

theorem steady_factorCodes_succ {fuel : Nat} (hcodes : ∀ ts, Steady (factorCodes fuel ts))
    (halternatives : ∀ ts, Steady (alternatives fuel ts)) (ts : List Tree) :
    Steady (factorCodes (fuel + 1) ts) := by
  cases ts with
  | nil => exact .pure []
  | cons t ts =>
    rw [factorCodes]
    refine .bind (hcodes _) fun rest => .ite (.pure _) (.bind steady_make fun _ => ?_)
    refine .bind (steady_tails (steady_dropLeadingCodes _) _) fun tails => ?_
    exact .bind (halternatives tails) fun tail => .bind steady_make fun _ => .pure _

theorem steady_factorLeads_succ {fuel : Nat} (hleads : ∀ ts, Steady (factorLeads fuel ts))
    (halternatives : ∀ ts, Steady (alternatives fuel ts)) (ts : List Tree) :
    Steady (factorLeads (fuel + 1) ts) := by
  cases ts with
  | nil => exact .pure []
  | cons t ts =>
    have halone : Steady (do return t :: (← factorLeads fuel ts)) :=
      .bind (hleads ts) fun _ => .pure _
    rw [factorLeads]
    split
    · exact halone
    · refine .ite halone (.bind (steady_dropLeading true t) fun head => ?_)
      refine .bind (steady_check head) fun _ => ?_
      refine .bind (steady_tails (steady_dropLeading false) _) fun tails => ?_
      refine .bind (halternatives _) fun tail => .bind steady_make fun _ => ?_
      exact .bind (hleads _) fun _ => .pure _

theorem steady_alternatives_succ {fuel : Nat} (hcodes : ∀ ts, Steady (factorCodes fuel ts))
    (hleads : ∀ ts, Steady (factorLeads fuel ts)) (ts : List Tree) :
    Steady (alternatives (fuel + 1) ts) := by
  unfold alternatives
  split
  · exact .pure _
  · exact .pure _
  · rename_i hfuel _
    cases hfuel
    refine .bind steady_make fun _ => .bind (steady_release _) fun _ => ?_
    refine .bind (hcodes _) fun ts => .bind (hleads ts) fun ts => ?_
    refine .bind (steady_mergeClasses ts) fun ts => ?_
    dsimp only
    split
    · exact .bind (steady_release 1) fun _ => .pure _
    · exact .pure _

/-- Factoring is steady, by induction on the depth of common beginnings. -/
theorem steady_factoring (fuel : Nat) : (∀ ts, Steady (factorCodes fuel ts)) ∧
    (∀ ts, Steady (factorLeads fuel ts)) ∧ ∀ ts, Steady (alternatives fuel ts) := by
  induction fuel with
  | zero => exact ⟨fun ts => .pure ts, fun ts => .pure ts, fun ts => .pure (alternate ts)⟩
  | succ fuel ih =>
    obtain ⟨hcodes, hleads, halternatives⟩ := ih
    exact ⟨steady_factorCodes_succ hcodes halternatives,
      steady_factorLeads_succ hleads halternatives, steady_alternatives_succ hcodes hleads⟩

theorem steady_joined (ts : List Tree) : Steady (joined ts) := by
  unfold joined
  split
  · exact .bind steady_make fun _ => .pure _
  · exact .pure _
  · exact .bind steady_make fun _ => .bind (steady_release _) fun _ => .pure _

end Trees

section Groups

open Budget

variable (g : Group)

theorem Group.steady_push (t : Tree) : Steady (g.push t) :=
  .guarded (steady_release 1) fun _ => .bind (steady_enter t) fun _ => .pure _

theorem Group.steady_pushClass (c : CharClass) : Steady (g.pushClass c) := by
  have hsingle : ∀ ignoreCase n, Steady (do
      enter (Tree.literal ignoreCase [n])
      return { g with items := Tree.literal ignoreCase [n] :: joinLiterals g.items }) :=
    fun ignoreCase n => .bind (steady_enter _) fun _ => .pure _
  refine .bind steady_make fun _ => ?_
  dsimp only
  split
  · exact hsingle _ _
  · exact .ite (hsingle _ _) (g.steady_push _)
  · exact g.steady_push _

theorem Group.steady_join : Steady g.join :=
  .guarded (steady_release 1) fun _ => .bind (steady_joined _) fun t =>
    .bind (steady_enter t) fun _ => .pure t

theorem Group.steady_addBranch (branches : List Tree) (t : Tree) :
    Steady (Group.addBranch branches t) := by
  unfold Group.addBranch
  split
  · exact .pure _
  · split
    · exact .bind (steady_release 1) fun _ => .pure _
    · split
      · exact .bind (steady_release 1) fun _ => .pure _
      · exact .pure _

theorem Group.steady_nextBranch : Steady g.nextBranch := by
  refine .bind g.steady_join fun t => ?_
  have hadd : Steady (do return { g with branches := ← addBranch g.branches t, items := [] }) :=
    .bind (steady_addBranch _ t) fun _ => .pure _
  exact .ite (.bind steady_make fun _ => .bind (steady_check _) fun _ => hadd) hadd

theorem Group.steady_close : Steady g.close := by
  refine .bind g.steady_join fun t => .bind (steady_addBranch _ t) fun branches => ?_
  exact .bind ((steady_factoring _).2.2 _) fun t => .bind (steady_enter t) fun _ => .pure t

end Groups

namespace State

open Budget

variable (st : State)

theorem steady_push (t : Tree) : Steady (st.push t) :=
  .bind steady_make fun _ => .bind (st.top.steady_push t) fun _ => .pure _

theorem steady_pushClass (c : CharClass) : Steady (st.pushClass c) :=
  .bind (st.top.steady_pushClass c) fun _ => .pure _

theorem steady_pushCode (n : Nat) : Steady (st.pushCode n) := st.steady_push _

theorem steady_openGroup (captures : Bool) (inside : Flags) :
    Steady (st.openGroup captures inside) :=
  .bind steady_make fun _ => .guarded (steady_release 1) fun _ =>
    .bind (steady_check _) fun _ => .pure _

theorem steady_nextBranch : Steady st.nextBranch :=
  .bind st.top.steady_nextBranch fun _ => .pure _

end State

end Backtrack.Regex
