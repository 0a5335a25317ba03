import Mathlib.Data.List.OfFn
import Backtrack.Evaluation
import Backtrack.Proofs.Parser.Bounds
import Backtrack.Proofs.Text.Suffix

/-!
# Reading along a text

`Reader.Reads` says that a term matches where a suffix of the text begins, with which value, and
which suffix it leaves; `Reader.Rejects` says that it misses there. Each combinator has a law in
these words, from which the offsets, the traces and the places of misses are gone. A grammar is
shown to accept a language by following these laws in both directions.

This module does NOT say anything about the errors of runs that are neither.
-/

namespace Backtrack

namespace Run

variable {α β : Type} {r : Run α}

theorem onSuccess_eq_success {f : α → Int → Run β} {b : β} {next : Int} :
    (r.onSuccess f).outcome = .success b next ↔
      ∃ a middle, r.outcome = .success a middle ∧ (f a middle).outcome = .success b next := by
  obtain ⟨outcome, trace⟩ := r
  cases outcome <;> simp [onSuccess, after]

theorem onSuccess_miss {f : α → Int → Run β} {missed : Int} (h : r.outcome = .miss missed) :
    (r.onSuccess f).outcome = .miss missed := by
  unfold onSuccess
  rw [h]

theorem onMiss_eq_success {f : Int → Run α} {a : α} {next : Int} :
    (r.onMiss f).outcome = .success a next ↔
      r.outcome = .success a next ∨
        ∃ missed, r.outcome = .miss missed ∧ (f missed).outcome = .success a next := by
  obtain ⟨outcome, trace⟩ := r
  cases outcome <;> simp [onMiss, after]

theorem onSuccess_eq_miss {f : α → Int → Run β} {next : Int} :
    (r.onSuccess f).outcome = .miss next ↔ r.outcome = .miss next ∨
      ∃ a middle, r.outcome = .success a middle ∧ (f a middle).outcome = .miss next := by
  obtain ⟨outcome, trace⟩ := r
  cases outcome <;> simp [onSuccess, after]

theorem onMiss_eq_miss {f : Int → Run α} {next : Int} :
    (r.onMiss f).outcome = .miss next ↔
      ∃ missed, r.outcome = .miss missed ∧ (f missed).outcome = .miss next := by
  obtain ⟨outcome, trace⟩ := r
  cases outcome <;> simp [onMiss, after]

end Run

/-- What a term is read with: an input, and parsers for the references that stay inside the text. -/
structure Reader {ι : Type} (τ : ι → Type) where
  input : Input
  refs : (i : ι) → Parser (τ i)
  within : ∀ i, (refs i).Within .lax

namespace Reader

open Text

variable {ι : Type} {τ : ι → Type} {α β γ : Type} (rd : Reader τ)

def bytes : Bytes := rd.input.text.toList

/-- The offset where a suffix of the text begins. -/
def offsetOf (s : Bytes) : Int := (placeOf rd.input.text s : Nat)

/-- What the run of a term comes to where a suffix of the text begins. -/
def run (t : Term τ α) (s : Bytes) : Outcome α :=
  (t.parser rd.refs rd.input (rd.offsetOf s)).outcome

/-- A term matches at a suffix of the text, with a value, and leaves another suffix. -/
structure Reads (t : Term τ α) (s : Bytes) (v : α) (u : Bytes) : Prop where
  start : s <:+ rd.bytes
  rest : u <:+ s
  matched : rd.run t s = .success v (rd.offsetOf u)

structure Rejects (t : Term τ α) (s : Bytes) : Prop where
  start : s <:+ rd.bytes
  missed : ∃ next, rd.run t s = .miss next

variable {rd} {s u u' : Bytes} {v v' : α}

theorem offsetOf_inj (hs : s <:+ rd.bytes) (hu : u <:+ rd.bytes)
    (h : rd.offsetOf s = rd.offsetOf u) : s = u := placeOf_inj hs hu (Int.ofNat_inj.mp h)

theorem offsetOf_nonneg : 0 ≤ rd.offsetOf s := Int.natCast_nonneg _

theorem offsetOf_le : rd.offsetOf s ≤ rd.input.size := Int.ofNat_le.mpr (Nat.sub_le _ _)

theorem offsetOf_append {t : Bytes} (h : t ++ u <:+ rd.bytes) :
    rd.offsetOf u = rd.offsetOf (t ++ u) + t.length := by
  have hplace := placeOf_of_append h
  unfold offsetOf
  omega

theorem offsetOf_toNat : (rd.offsetOf s).toNat = placeOf rd.input.text s := Int.toNat_natCast _

/-- A run stays behind its start and inside the text. -/
theorem run_within (t : Term τ α) (s : Bytes) :
    (t.parser rd.refs rd.input (rd.offsetOf s)).Within .lax rd.input (rd.offsetOf s) := by
  have hkeeps : t.Keeps .lax fun _ => none := t.keeps_lax
  exact Term.parser_within (fun i _ => rd.within i) hkeeps rd.input _ offsetOf_nonneg offsetOf_le

/-- A match leaves a suffix of what it started from. -/
theorem reads_of_success {t : Term τ α} {next : Int} (hs : s <:+ rd.bytes)
    (h : rd.run t s = .success v next) : ∃ u, rd.Reads t s v u ∧ next = rd.offsetOf u := by
  have hnext := (rd.run_within t s).matched v next h
  have hsize : rd.input.text.size = rd.input.size := rfl
  have hplace : rd.offsetOf s = (placeOf rd.input.text s : Nat) := rfl
  obtain ⟨u, hu, hp⟩ := exists_suffix hs (p := next.toNat) (by omega) (by omega)
  have heq : next = rd.offsetOf u := by
    unfold offsetOf
    omega
  exact ⟨u, ⟨hs, hu, heq ▸ h⟩, heq⟩

theorem Reads.of_run {t : Term τ α} (hs : s <:+ rd.bytes) (hu : u <:+ rd.bytes)
    (h : rd.run t s = .success v (rd.offsetOf u)) : rd.Reads t s v u := by
  obtain ⟨u', hread, heq⟩ := reads_of_success hs h
  rwa [offsetOf_inj hu (hread.rest.trans hs) heq]

theorem Reads.finish {t : Term τ α} (h : rd.Reads t s v u) : u <:+ rd.bytes := h.rest.trans h.start

theorem Reads.unique {t : Term τ α} (h : rd.Reads t s v u) (h' : rd.Reads t s v' u') :
    v = v' ∧ u = u' := by
  have heq := h.matched.symm.trans h'.matched
  cases Outcome.success.inj heq with
  | intro hv hoffset => exact ⟨hv, offsetOf_inj h.finish h'.finish hoffset⟩

theorem Rejects.not_reads {t : Term τ α} (h : rd.Rejects t s) : ¬ rd.Reads t s v u := by
  intro hread
  obtain ⟨next, hmiss⟩ := h.missed
  rw [hread.matched] at hmiss
  cases hmiss

section Sequence

variable {p : Term τ α} {q : Term τ β}

theorem reads_and {w : α × β} :
    rd.Reads (p.and q) s w u ↔ ∃ m, rd.Reads p s w.1 m ∧ rd.Reads q m w.2 u := by
  constructor
  · rintro ⟨hs, hu, h⟩
    obtain ⟨a, middle, ha, h⟩ := Run.onSuccess_eq_success.mp h
    obtain ⟨m, hm, rfl⟩ := reads_of_success hs ha
    obtain ⟨b, next, hb, h⟩ := Run.onSuccess_eq_success.mp h
    cases h
    exact ⟨m, hm, .of_run hm.finish (hu.trans hs) hb⟩
  · rintro ⟨m, hm, hu⟩
    refine .of_run hm.start hu.finish ?_
    refine Run.onSuccess_eq_success.mpr ⟨_, _, hm.matched, ?_⟩
    exact Run.onSuccess_eq_success.mpr ⟨_, _, hu.matched, rfl⟩

theorem rejects_and (h : rd.Rejects p s) : rd.Rejects (p.and q) s := by
  obtain ⟨hs, next, hmiss⟩ := h
  exact ⟨hs, next, Run.onSuccess_miss hmiss⟩

theorem reads_map {f : α → β} {b : β} :
    rd.Reads (p.map f) s b u ↔ ∃ a, rd.Reads p s a u ∧ f a = b := by
  constructor
  · rintro ⟨hs, hu, h⟩
    obtain ⟨a, next, ha, h⟩ := Run.onSuccess_eq_success.mp h
    cases h
    exact ⟨a, .of_run hs (hu.trans hs) ha, rfl⟩
  · rintro ⟨a, ha, rfl⟩
    exact .of_run ha.start ha.finish (Run.onSuccess_eq_success.mpr ⟨_, _, ha.matched, rfl⟩)

theorem rejects_map {f : α → β} (h : rd.Rejects p s) : rd.Rejects (p.map f) s := by
  obtain ⟨hs, next, hmiss⟩ := h
  exact ⟨hs, next, Run.onSuccess_miss hmiss⟩

theorem ofExcept_fatal_ne {e : Except Fault ParseError} {b : β} {next : Int} :
    (Run.ofExcept e Run.fatal).outcome ≠ .success b next := by
  cases e <;> nofun

theorem reads_mapErr {f : α → Except Error β} {b : β} :
    rd.Reads (p.mapErr f) s b u ↔ ∃ a, rd.Reads p s a u ∧ f a = .ok b := by
  constructor
  · rintro ⟨hs, hu, h⟩
    obtain ⟨a, next, ha, h⟩ := Run.onSuccess_eq_success.mp h
    split at h
    · rename_i hf
      cases h
      exact ⟨a, .of_run hs (hu.trans hs) ha, hf⟩
    · exact absurd h ofExcept_fatal_ne
  · rintro ⟨a, ha, hf⟩
    refine .of_run ha.start ha.finish (Run.onSuccess_eq_success.mpr ⟨_, _, ha.matched, ?_⟩)
    rw [hf]
    rfl

theorem rejects_mapErr {f : α → Except Error β} (h : rd.Rejects p s) :
    rd.Rejects (p.mapErr f) s := by
  obtain ⟨hs, next, hmiss⟩ := h
  exact ⟨hs, next, Run.onSuccess_miss hmiss⟩

theorem reads_value {b c : β} :
    rd.Reads (p.value b) s c u ↔ (∃ a, rd.Reads p s a u) ∧ b = c := by
  rw [Term.value, reads_map]
  exact ⟨fun ⟨a, ha, h⟩ => ⟨⟨a, ha⟩, h⟩, fun ⟨⟨a, ha⟩, h⟩ => ⟨a, ha, h⟩⟩

theorem reads_skipLeft {b : β} :
    rd.Reads (p.skipLeft q) s b u ↔ ∃ a m, rd.Reads p s a m ∧ rd.Reads q m b u := by
  rw [Term.skipLeft, reads_map]
  constructor
  · rintro ⟨w, hw, rfl⟩
    obtain ⟨m, hm, hu⟩ := reads_and.mp hw
    exact ⟨w.1, m, hm, hu⟩
  · rintro ⟨a, m, hm, hu⟩
    exact ⟨(a, b), reads_and.mpr ⟨m, hm, hu⟩, rfl⟩

theorem reads_skipRight {a : α} :
    rd.Reads (p.skipRight q) s a u ↔ ∃ b m, rd.Reads p s a m ∧ rd.Reads q m b u := by
  rw [Term.skipRight, reads_map]
  constructor
  · rintro ⟨w, hw, rfl⟩
    obtain ⟨m, hm, hu⟩ := reads_and.mp hw
    exact ⟨w.2, m, hm, hu⟩
  · rintro ⟨b, m, hm, hu⟩
    exact ⟨(a, b), reads_and.mpr ⟨m, hm, hu⟩, rfl⟩

theorem rejects_skipLeft (h : rd.Rejects p s) : rd.Rejects (p.skipLeft q) s :=
  rejects_map (rejects_and h)

theorem rejects_skipRight (h : rd.Rejects p s) : rd.Rejects (p.skipRight q) s :=
  rejects_map (rejects_and h)

/-- One after another misses where the first does, or where the second does behind it. -/
theorem rejects_and_iff : rd.Rejects (p.and q) s ↔
    rd.Rejects p s ∨ ∃ a m, rd.Reads p s a m ∧ rd.Rejects q m := by
  constructor
  · rintro ⟨hs, next, h⟩
    rcases Run.onSuccess_eq_miss.mp h with h | ⟨a, middle, ha, h⟩
    · exact .inl ⟨hs, next, h⟩
    · obtain ⟨m, hm, rfl⟩ := reads_of_success hs ha
      rcases Run.onSuccess_eq_miss.mp h with h | ⟨_, _, _, h⟩
      · exact .inr ⟨a, m, hm, hm.finish, next, h⟩
      · cases h
  · rintro (h | ⟨a, m, hm, _, next, h⟩)
    · exact rejects_and h
    · refine ⟨hm.start, next, Run.onSuccess_eq_miss.mpr (.inr ⟨a, _, hm.matched, ?_⟩)⟩
      exact Run.onSuccess_eq_miss.mpr (.inl h)

theorem rejects_map_iff {f : α → β} : rd.Rejects (p.map f) s ↔ rd.Rejects p s := by
  constructor
  · rintro ⟨hs, next, h⟩
    rcases Run.onSuccess_eq_miss.mp h with h | ⟨_, _, _, h⟩
    · exact ⟨hs, next, h⟩
    · cases h
  · exact rejects_map

theorem rejects_skipLeft_iff : rd.Rejects (p.skipLeft q) s ↔
    rd.Rejects p s ∨ ∃ a m, rd.Reads p s a m ∧ rd.Rejects q m :=
  rejects_map_iff.trans rejects_and_iff

theorem rejects_skipRight_iff : rd.Rejects (p.skipRight q) s ↔
    rd.Rejects p s ∨ ∃ a m, rd.Reads p s a m ∧ rd.Rejects q m :=
  rejects_map_iff.trans rejects_and_iff

theorem reads_flatMap {f : α → Term τ β} {w : α × β} :
    rd.Reads (p.flatMap f) s w u ↔ ∃ m, rd.Reads p s w.1 m ∧ rd.Reads (f w.1) m w.2 u := by
  constructor
  · rintro ⟨hs, hu, h⟩
    obtain ⟨a, middle, ha, h⟩ := Run.onSuccess_eq_success.mp h
    obtain ⟨m, hm, rfl⟩ := reads_of_success hs ha
    obtain ⟨b, next, hb, h⟩ := Run.onSuccess_eq_success.mp h
    cases h
    exact ⟨m, hm, .of_run hm.finish (hu.trans hs) hb⟩
  · rintro ⟨m, hm, hu⟩
    apply Reads.of_run hm.start hu.finish
    apply Run.onSuccess_eq_success.mpr ⟨_, _, hm.matched, ?_⟩
    exact Run.onSuccess_eq_success.mpr ⟨_, _, hu.matched, rfl⟩

theorem rejects_flatMap {f : α → Term τ β} (h : rd.Rejects p s) : rd.Rejects (p.flatMap f) s := by
  obtain ⟨hs, next, hmiss⟩ := h
  exact ⟨hs, next, Run.onSuccess_miss hmiss⟩

theorem of_rejects_flatMap {f : α → Term τ β} (h : rd.Rejects (p.flatMap f) s) :
    rd.Rejects p s ∨ ∃ a m, rd.Reads p s a m ∧ rd.Rejects (f a) m := by
  obtain ⟨hs, next, h⟩ := h
  rcases Run.onSuccess_eq_miss.mp h with h | ⟨a, middle, ha, h⟩
  · exact .inl ⟨hs, next, h⟩
  · obtain ⟨m, hm, rfl⟩ := reads_of_success hs ha
    rcases Run.onSuccess_eq_miss.mp h with h | ⟨_, _, _, h⟩
    · exact .inr ⟨a, m, hm, hm.finish, next, h⟩
    · cases h

theorem reads_always {a b : α} : rd.Reads (.always a) s b u ↔ s <:+ rd.bytes ∧ u = s ∧ a = b := by
  constructor
  · rintro ⟨hs, hu, h⟩
    obtain ⟨rfl, hoffset⟩ := Outcome.success.inj h
    exact ⟨hs, (offsetOf_inj hs (hu.trans hs) hoffset).symm, rfl⟩
  · rintro ⟨hs, rfl, rfl⟩
    exact ⟨hs, List.suffix_rfl, rfl⟩

theorem not_rejects_always {a : α} : ¬ rd.Rejects (.always a) s := by
  rintro ⟨_, _, h⟩
  cases h

end Sequence

section Commit

variable {p : Term τ α} {a : α}

theorem reads_named {name : Bytes} : rd.Reads (.named name p) s a u ↔ rd.Reads p s a u :=
  ⟨fun ⟨hs, hu, h⟩ => ⟨hs, hu, h⟩, fun ⟨hs, hu, h⟩ => ⟨hs, hu, h⟩⟩

theorem rejects_named {name : Bytes} (h : rd.Rejects p s) : rd.Rejects (.named name p) s :=
  ⟨h.start, h.missed⟩

theorem reads_commit {diagnostic : Diagnostic} :
    rd.Reads (p.commit diagnostic) s a u ↔ rd.Reads p s a u := by
  constructor
  · rintro ⟨hs, hu, h⟩
    rcases Run.onMiss_eq_success.mp h with h | ⟨missed, _, h⟩
    · exact ⟨hs, hu, h⟩
    · exact absurd h ofExcept_fatal_ne
  · rintro ⟨hs, hu, h⟩
    exact ⟨hs, hu, Run.onMiss_eq_success.mpr (.inl h)⟩

theorem reads_expect (what : Bytes) : rd.Reads (p.expect what) s a u ↔ rd.Reads p s a u :=
  reads_commit

theorem not_rejects_commit {diagnostic : Diagnostic} :
    ¬ rd.Rejects (p.commit diagnostic) s := by
  rintro ⟨_, next, h⟩
  obtain ⟨_, _, h⟩ := Run.onMiss_eq_miss.mp h
  revert h
  generalize (do rd.input.annotate _ (← diagnostic _ _) : Except Fault ParseError) = e
  cases e <;> nofun

end Commit

section Choice

variable {p : Term τ α} {ps : List (Term τ α)} {a : α}

theorem parser_choice (refs : (i : ι) → Parser (τ i)) :
    (Term.choice ps).parser refs = .oneOf (ps.map fun p => p.parser refs) := by
  unfold Term.choice
  simp only [Term.parser]
  exact congrArg Parser.oneOf (List.ofFn_getElem_eq_map ps fun p => p.parser refs)

/-- Which alternative matches does not depend on where the ones before missed. -/
theorem oneOfFrom_eq_success {qs : List (Parser α)} {input : Input} {offset next : Int}
    {furthest furthest' : Int} (h : (Parser.oneOfFrom furthest qs input offset).outcome =
      .success a next) :
    (Parser.oneOfFrom furthest' qs input offset).outcome = .success a next := by
  induction qs generalizing furthest furthest' with
  | nil => cases h
  | cons q qs ih =>
    rcases Run.onMiss_eq_success.mp h with h | ⟨missed, hmiss, h⟩
    · exact Run.onMiss_eq_success.mpr (.inl h)
    · exact Run.onMiss_eq_success.mpr (.inr ⟨missed, hmiss, ih h⟩)

theorem run_choice_cons : rd.run (.choice (p :: ps)) s =
    (Parser.oneOfFrom (rd.offsetOf s) ((p :: ps).map fun p => p.parser rd.refs) rd.input
      (rd.offsetOf s)).outcome := by
  unfold run
  rw [parser_choice]
  rfl

/-- A choice takes the first alternative that does not miss. -/
theorem reads_choice_cons : rd.Reads (.choice (p :: ps)) s a u ↔
    rd.Reads p s a u ∨ rd.Rejects p s ∧ rd.Reads (.choice ps) s a u := by
  have hrun : rd.run (.choice ps) s = (Parser.oneOf (ps.map fun p => p.parser rd.refs) rd.input
      (rd.offsetOf s)).outcome := by
    unfold run
    rw [parser_choice]
  constructor
  · rintro ⟨hs, hu, h⟩
    rw [run_choice_cons] at h
    rcases Run.onMiss_eq_success.mp h with h | ⟨missed, hmiss, h⟩
    · exact .inl ⟨hs, hu, h⟩
    · exact .inr ⟨⟨hs, missed, hmiss⟩, hs, hu, hrun.trans (oneOfFrom_eq_success h)⟩
  · rintro (⟨hs, hu, h⟩ | ⟨⟨_, missed, hmiss⟩, hs, hu, h⟩)
    · refine ⟨hs, hu, ?_⟩
      rw [run_choice_cons]
      exact Run.onMiss_eq_success.mpr (.inl h)
    · refine ⟨hs, hu, ?_⟩
      rw [run_choice_cons]
      rw [hrun] at h
      exact Run.onMiss_eq_success.mpr (.inr ⟨missed, hmiss, oneOfFrom_eq_success h⟩)

theorem not_reads_choice_nil : ¬ rd.Reads (.choice ([] : List (Term τ α))) s a u := by
  rintro ⟨_, _, h⟩
  cases h

theorem reads_choice_head (h : rd.Reads p s a u) : rd.Reads (.choice (p :: ps)) s a u :=
  reads_choice_cons.mpr (.inl h)

theorem reads_choice_tail (hp : rd.Rejects p s) (h : rd.Reads (.choice ps) s a u) :
    rd.Reads (.choice (p :: ps)) s a u := reads_choice_cons.mpr (.inr ⟨hp, h⟩)

theorem rejects_choice_nil (hs : s <:+ rd.bytes) :
    rd.Rejects (.choice ([] : List (Term τ α))) s := ⟨hs, rd.offsetOf s, rfl⟩

/-- Whether a choice misses does not depend on where the alternatives before missed. -/
theorem oneOfFrom_eq_miss {qs : List (Parser α)} {input : Input} {offset next : Int}
    {furthest furthest' : Int}
    (h : (Parser.oneOfFrom furthest qs input offset).outcome = .miss next) :
    ∃ next', (Parser.oneOfFrom furthest' qs input offset).outcome = .miss next' := by
  induction qs generalizing furthest furthest' with
  | nil => exact ⟨furthest', rfl⟩
  | cons q qs ih =>
    unfold Parser.oneOfFrom Run.onMiss at h ⊢
    dsimp only at h ⊢
    split at h
    · exact ih h
    · rename_i hmiss
      exact absurd h (hmiss next)

theorem rejects_choice_cons (hp : rd.Rejects p s) (h : rd.Rejects (.choice ps) s) :
    rd.Rejects (.choice (p :: ps)) s := by
  obtain ⟨hs, missed, hmiss⟩ := hp
  obtain ⟨_, next, h⟩ := h
  unfold run at h hmiss
  rw [parser_choice] at h
  refine ⟨hs, ?_⟩
  rw [run_choice_cons, List.map_cons]
  unfold Parser.oneOfFrom Run.onMiss
  dsimp only
  rw [hmiss]
  exact oneOfFrom_eq_miss h

theorem exists_of_reads_choice (h : rd.Reads (.choice ps) s a u) :
    ∃ p ∈ ps, rd.Reads p s a u := by
  induction ps with
  | nil => exact absurd h not_reads_choice_nil
  | cons p ps ih =>
    rcases reads_choice_cons.mp h with h | ⟨_, h⟩
    · exact ⟨p, List.mem_cons_self, h⟩
    · obtain ⟨q, hq, h⟩ := ih h
      exact ⟨q, List.mem_cons_of_mem p hq, h⟩

theorem reads_or {q : Term τ α} : rd.Reads (p.or q) s a u ↔
    rd.Reads p s a u ∨ rd.Rejects p s ∧ rd.Reads q s a u := by
  constructor
  · rintro ⟨hs, hu, h⟩
    rcases Run.onMiss_eq_success.mp h with h | ⟨missed, hmiss, h⟩
    · exact .inl ⟨hs, hu, h⟩
    · rcases Run.onMiss_eq_success.mp h with h | ⟨_, _, h⟩
      · exact .inr ⟨⟨hs, missed, hmiss⟩, hs, hu, h⟩
      · cases h
  · rintro (⟨hs, hu, h⟩ | ⟨⟨_, missed, hmiss⟩, hs, hu, h⟩)
    · exact ⟨hs, hu, Run.onMiss_eq_success.mpr (.inl h)⟩
    · refine ⟨hs, hu, Run.onMiss_eq_success.mpr (.inr ⟨missed, hmiss, ?_⟩)⟩
      exact Run.onMiss_eq_success.mpr (.inl h)

theorem rejects_or_iff {q : Term τ α} :
    rd.Rejects (p.or q) s ↔ rd.Rejects p s ∧ rd.Rejects q s := by
  constructor
  · rintro ⟨hs, next, h⟩
    obtain ⟨missed, hmiss, h⟩ := Run.onMiss_eq_miss.mp h
    obtain ⟨other, hother, _⟩ := Run.onMiss_eq_miss.mp h
    exact ⟨⟨hs, missed, hmiss⟩, hs, other, hother⟩
  · rintro ⟨⟨hs, missed, hmiss⟩, _, other, hother⟩
    refine ⟨hs, if other < missed then missed else other, ?_⟩
    exact Run.onMiss_eq_miss.mpr ⟨_, hmiss, Run.onMiss_eq_miss.mpr ⟨_, hother, rfl⟩⟩

theorem reads_optional {default : α} : rd.Reads (p.optional default) s a u ↔
    rd.Reads p s a u ∨ rd.Rejects p s ∧ u = s ∧ default = a := by
  constructor
  · rintro ⟨hs, hu, h⟩
    rcases Run.onMiss_eq_success.mp h with h | ⟨missed, hmiss, h⟩
    · exact .inl ⟨hs, hu, h⟩
    · obtain ⟨rfl, hoffset⟩ := Outcome.success.inj h
      exact .inr ⟨⟨hs, missed, hmiss⟩, (offsetOf_inj hs (hu.trans hs) hoffset).symm, rfl⟩
  · rintro (⟨hs, hu, h⟩ | ⟨⟨hs, missed, hmiss⟩, rfl, rfl⟩)
    · exact ⟨hs, hu, Run.onMiss_eq_success.mpr (.inl h)⟩
    · exact ⟨hs, List.suffix_rfl, Run.onMiss_eq_success.mpr (.inr ⟨missed, hmiss, rfl⟩)⟩

theorem reads_not {b : Unit} : rd.Reads p.not s b u ↔ rd.Rejects p s ∧ u = s := by
  constructor
  · rintro ⟨hs, hu, h⟩
    unfold run at h
    simp only [Term.parser, Parser.not] at h
    split at h
    · cases h
    · rename_i next hmiss
      obtain ⟨_, hoffset⟩ := Outcome.success.inj h
      exact ⟨⟨hs, next, hmiss⟩, (offsetOf_inj hs (hu.trans hs) hoffset).symm⟩
    · cases h
    · cases h
  · rintro ⟨⟨hs, next, hmiss⟩, rfl⟩
    refine ⟨hs, List.suffix_rfl, ?_⟩
    unfold run at hmiss ⊢
    simp only [Term.parser, Parser.not, hmiss]

theorem rejects_not (h : rd.Reads p s a u) : rd.Rejects p.not s := by
  refine ⟨h.start, rd.offsetOf s, ?_⟩
  have hmatched := h.matched
  unfold run at hmatched ⊢
  simp only [Term.parser, Parser.not, hmatched]

end Choice

section SequenceOf

variable {p : Term τ α} {ps : List (Term τ α)} {as : List α}

theorem parser_sequenceOf (refs : (i : ι) → Parser (τ i)) :
    (Term.sequenceOf ps).parser refs = .sequence (ps.map fun p => p.parser refs) := by
  unfold Term.sequenceOf
  simp only [Term.parser]
  exact congrArg Parser.sequence (List.ofFn_getElem_eq_map ps fun p => p.parser refs)

/-- The values that were read before stay in front. -/
theorem sequenceFrom_eq_success {qs : List (Parser α)} {input : Input} {offset next : Int}
    {values : List α} :
    (Parser.sequenceFrom values qs input offset).outcome = .success as next ↔
      ∃ bs, as = values.reverse ++ bs ∧
        (Parser.sequenceFrom [] qs input offset).outcome = .success bs next := by
  induction qs generalizing values offset as with
  | nil =>
    simp only [Parser.sequenceFrom, Run.success, Outcome.success.injEq, List.reverse_nil]
    constructor
    · rintro ⟨rfl, rfl⟩
      exact ⟨[], (List.append_nil _).symm, rfl, rfl⟩
    · rintro ⟨_, rfl, rfl, rfl⟩
      exact ⟨(List.append_nil _).symm, rfl⟩
  | cons q qs ih =>
    simp only [Parser.sequenceFrom, Run.onSuccess_eq_success]
    constructor
    · rintro ⟨a, middle, ha, h⟩
      obtain ⟨bs, rfl, hbs⟩ := ih.mp h
      exact ⟨a :: bs, by simp, a, middle, ha, ih.mpr ⟨bs, rfl, hbs⟩⟩
    · rintro ⟨bs, rfl, a, middle, ha, h⟩
      obtain ⟨cs, rfl, hcs⟩ := ih.mp h
      exact ⟨a, middle, ha, ih.mpr ⟨cs, by simp, hcs⟩⟩

theorem reads_sequenceOf_nil :
    rd.Reads (.sequenceOf ([] : List (Term τ α))) s as u ↔ s <:+ rd.bytes ∧ u = s ∧ as = [] := by
  have hrun : rd.run (.sequenceOf ([] : List (Term τ α))) s = .success [] (rd.offsetOf s) := rfl
  constructor
  · intro h
    obtain ⟨rfl, hoffset⟩ := Outcome.success.inj (hrun.symm.trans h.matched)
    exact ⟨h.start, offsetOf_inj h.finish h.start hoffset.symm, rfl⟩
  · rintro ⟨hs, rfl, rfl⟩
    exact ⟨hs, List.suffix_rfl, hrun⟩

theorem reads_sequenceOf_cons : rd.Reads (.sequenceOf (p :: ps)) s as u ↔
    ∃ a m bs, rd.Reads p s a m ∧ rd.Reads (.sequenceOf ps) m bs u ∧ as = a :: bs := by
  constructor
  · rintro ⟨hs, hu, h⟩
    unfold run at h
    rw [parser_sequenceOf] at h
    obtain ⟨a, middle, ha, h⟩ := Run.onSuccess_eq_success.mp h
    obtain ⟨bs, rfl, hbs⟩ := sequenceFrom_eq_success.mp h
    obtain ⟨m, hm, rfl⟩ := reads_of_success hs ha
    refine ⟨a, m, bs, hm, .of_run hm.finish (hu.trans hs) ?_, rfl⟩
    unfold run
    rw [parser_sequenceOf]
    exact hbs
  · rintro ⟨a, m, bs, hm, hbs, rfl⟩
    refine .of_run hm.start hbs.finish ?_
    have hmatched := hbs.matched
    unfold run at hmatched ⊢
    rw [parser_sequenceOf] at hmatched ⊢
    exact Run.onSuccess_eq_success.mpr
      ⟨a, _, hm.matched, sequenceFrom_eq_success.mpr ⟨bs, rfl, hmatched⟩⟩

end SequenceOf

section Repetition

variable {p : Term τ α} {as : List α}

/-- Matches one after another, as many as there are; each consumes something. -/
inductive Chain (rd : Reader τ) (p : Term τ α) : Bytes → List α → Bytes → Prop where
  | stop {s : Bytes} (h : rd.Rejects p s ∨ ∃ a, rd.Reads p s a s) : Chain rd p s [] s
  | next {s m u : Bytes} {a : α} {as : List α} (h : rd.Reads p s a m) (hne : m ≠ s)
      (hrest : Chain rd p m as u) : Chain rd p s (a :: as) u

theorem Chain.suffix (h : rd.Chain p s as u) : u <:+ s := by
  induction h with
  | stop => exact List.suffix_rfl
  | next h _ _ ih => exact ih.trans h.rest

/-- A repetition of what always consumes something goes on to a miss. -/
theorem Chain.rejects (hp : ∀ s a, ¬ rd.Reads p s a s) (h : rd.Chain p s as u) :
    rd.Rejects p u := by
  induction h with
  | stop h =>
    rcases h with h | ⟨a, h⟩
    · exact h
    · exact absurd h (hp _ a)
  | next _ _ _ ih => exact ih

theorem repeatMany_of_chain (h : rd.Chain p s as u) (hs : s <:+ rd.bytes) {fuel : Nat}
    (hfuel : s.length < fuel) (values : List α) (trace : Trace) :
    (Parser.repeatMany (p.parser rd.refs) rd.input fuel values trace (rd.offsetOf s)).outcome =
      .success (values.reverse ++ as) (rd.offsetOf u) := by
  induction h generalizing fuel values trace with
  | stop h =>
    obtain ⟨fuel, rfl⟩ : ∃ fuel', fuel = fuel' + 1 := ⟨fuel - 1, by omega⟩
    unfold Parser.repeatMany
    rcases h with ⟨_, next, h⟩ | ⟨a, _, _, h⟩
    · unfold run at h
      simp [h]
    · unfold run at h
      simp [h]
  | @next s m u a as h hne hrest ih =>
    obtain ⟨fuel, rfl⟩ : ∃ fuel', fuel = fuel' + 1 := ⟨fuel - 1, by omega⟩
    -- A match that consumes something leaves a shorter text, so the fuel suffices for the rest.
    have hne' : rd.offsetOf m ≠ rd.offsetOf s := fun heq => hne (offsetOf_inj h.finish hs heq)
    have hlength : m.length < s.length := by
      rcases Nat.lt_or_ge m.length s.length with hlt | hge
      · exact hlt
      · exact absurd (h.rest.eq_of_length_le hge) hne
    have hfuel' : m.length < fuel := by omega
    have hm := ih h.finish hfuel' (a :: values)
    unfold Parser.repeatMany
    have hmatched := h.matched
    unfold run at hmatched
    simp only [hmatched, if_neg hne']
    rw [hm, List.reverse_cons, List.append_assoc, List.singleton_append]

theorem chain_of_repeatMany {fuel : Nat} {next : Int} {values vs : List α} {trace : Trace}
    (hs : s <:+ rd.bytes)
    (h : (Parser.repeatMany (p.parser rd.refs) rd.input fuel values trace
      (rd.offsetOf s)).outcome = .success vs next) :
    ∃ as u, vs = values.reverse ++ as ∧ rd.Chain p s as u ∧ next = rd.offsetOf u := by
  induction fuel generalizing s values trace with
  | zero => cases h
  | succ fuel ih =>
    unfold Parser.repeatMany at h
    dsimp only at h
    split at h
    · rename_i a middle ha
      obtain ⟨m, hm, rfl⟩ := reads_of_success hs ha
      split at h
      · rename_i heq
        obtain rfl := offsetOf_inj hm.finish hs heq
        cases h
        exact ⟨[], m, (List.append_nil _).symm, .stop (.inr ⟨a, hm⟩), rfl⟩
      · rename_i hne
        obtain ⟨as, u, rfl, hchain, hnext⟩ := ih hm.finish h
        refine ⟨a :: as, u, by simp, .next hm ?_ hchain, hnext⟩
        rintro rfl
        exact hne rfl
    · rename_i missed hmiss
      cases h
      exact ⟨[], s, (List.append_nil _).symm, .stop (.inl ⟨hs, missed, hmiss⟩), rfl⟩
    · cases h
    · cases h

/-- An unbounded repetition matches as often as it can. -/
theorem reads_many0 : rd.Reads p.many0 s as u ↔ s <:+ rd.bytes ∧ rd.Chain p s as u := by
  have hrun : rd.run p.many0 s = (Parser.repeatMany (p.parser rd.refs) rd.input
      ((rd.input.size - rd.offsetOf s).toNat + 1) [] .nil (rd.offsetOf s)).outcome := rfl
  constructor
  · rintro ⟨hs, hu, h⟩
    rw [hrun] at h
    obtain ⟨as', u', rfl, hchain, heq⟩ := chain_of_repeatMany hs h
    obtain rfl := offsetOf_inj (hu.trans hs) (hchain.suffix.trans hs) heq
    exact ⟨hs, hchain⟩
  · rintro ⟨hs, hchain⟩
    refine ⟨hs, hchain.suffix, ?_⟩
    have hlength := placeOf_add_length hs
    have hplace : rd.offsetOf s = (placeOf rd.input.text s : Nat) := rfl
    have hsize : rd.input.text.size = rd.input.size := rfl
    rw [hrun]
    exact repeatMany_of_chain hchain hs (by omega) [] .nil

theorem reads_many1 : rd.Reads p.many1 s as u ↔
    ∃ a as' m, as = a :: as' ∧ rd.Reads p s a m ∧ rd.Chain p m as' u := by
  have hrun : ∀ s, rd.run p.many1 s = ((p.parser rd.refs rd.input (rd.offsetOf s)).onSuccess
      fun a next => Parser.repeatMany (p.parser rd.refs) rd.input
        ((rd.input.size - next).toNat + 1) [a] .nil next).outcome := fun _ => rfl
  constructor
  · rintro ⟨hs, hu, h⟩
    rw [hrun] at h
    obtain ⟨a, middle, ha, h⟩ := Run.onSuccess_eq_success.mp h
    obtain ⟨m, hm, rfl⟩ := reads_of_success hs ha
    obtain ⟨as', u', rfl, hchain, heq⟩ := chain_of_repeatMany hm.finish h
    obtain rfl := offsetOf_inj (hu.trans hs) (hchain.suffix.trans hm.finish) heq
    exact ⟨a, as', m, rfl, hm, hchain⟩
  · rintro ⟨a, as', m, rfl, hm, hchain⟩
    have hlength := placeOf_add_length hm.finish
    have hplace : rd.offsetOf m = (placeOf rd.input.text m : Nat) := rfl
    have hsize : rd.input.text.size = rd.input.size := rfl
    apply Reads.of_run hm.start (hchain.suffix.trans hm.finish)
    rw [hrun]
    apply Run.onSuccess_eq_success.mpr ⟨a, _, hm.matched, ?_⟩
    exact repeatMany_of_chain hchain hm.finish (by omega) [a] .nil

theorem rejects_many1 (h : rd.Rejects p s) : rd.Rejects p.many1 s := by
  obtain ⟨hs, next, hmiss⟩ := h
  exact ⟨hs, next, Run.onSuccess_miss hmiss⟩

theorem repeatMany_ne_miss {p : Parser α} {input : Input} {fuel : Nat} {values : List α}
    {trace : Trace} {offset next : Int} :
    (Parser.repeatMany p input fuel values trace offset).outcome ≠ .miss next := by
  induction fuel generalizing values trace offset with
  | zero => nofun
  | succ fuel ih =>
    unfold Parser.repeatMany
    dsimp only
    split
    · split
      · nofun
      · exact ih
    · nofun
    · nofun
    · nofun

theorem not_rejects_many0 : ¬ rd.Rejects p.many0 s := by
  rintro ⟨_, next, h⟩
  exact repeatMany_ne_miss h

end Repetition

def Sound (rd : Reader τ) (p : Term τ α) (L : α → Bytes → Prop) : Prop :=
  ∀ ⦃s a u⦄, rd.Reads p s a u → ∃ t, s = t ++ u ∧ L a t

end Reader

namespace Definitions

variable {ι : Type} {τ : ι → Type} {defs : Definitions τ} {depth : Nat} {input : Input}

def reader (defs : Definitions τ) (depth : Nat) (input : Input) : Reader τ where
  input := input
  refs := defs.refsAt depth
  within := defs.refsAt_within_lax depth

theorem run_ref {i : ι} {body : Term τ (τ i)} (h : defs i = some body) {s : Bytes} :
    (defs.reader (depth + 1) input).run (.ref i) s = (defs.reader depth input).run body s := by
  have hrefs : defs.refsAt (depth + 1) i = body.parser (defs.refsAt depth) := by
    simp only [refsAt]
    rw [h]
    exact defs.parserAt_eq depth body
  unfold Reader.run reader
  simp only [Term.parser]
  rw [hrefs]
  rfl

theorem reads_ref {i : ι} {body : Term τ (τ i)} (h : defs i = some body) {s u : Bytes} {a : τ i} :
    (defs.reader (depth + 1) input).Reads (.ref i) s a u ↔
      (defs.reader depth input).Reads body s a u := by
  constructor
  · rintro ⟨hs, hu, hmatched⟩
    exact ⟨hs, hu, (run_ref h).symm.trans hmatched⟩
  · rintro ⟨hs, hu, hmatched⟩
    exact ⟨hs, hu, (run_ref h).trans hmatched⟩

theorem rejects_ref {i : ι} {body : Term τ (τ i)} (h : defs i = some body) {s : Bytes} :
    (defs.reader (depth + 1) input).Rejects (.ref i) s ↔
      (defs.reader depth input).Rejects body s := by
  constructor
  · rintro ⟨hs, next, hmiss⟩
    exact ⟨hs, next, (run_ref h).symm.trans hmiss⟩
  · rintro ⟨hs, next, hmiss⟩
    exact ⟨hs, next, (run_ref h).trans hmiss⟩

theorem exists_of_reads_ref {i : ι} {s u : Bytes} {a : τ i}
    (h : (defs.reader (depth + 1) input).Reads (.ref i) s a u) :
    ∃ body, defs i = some body ∧ (defs.reader depth input).Reads body s a u := by
  cases hbody : defs i with
  | some body => exact ⟨body, rfl, (reads_ref hbody).mp h⟩
  | none =>
    have hmatched := h.matched
    unfold Reader.run reader at hmatched
    simp only [Term.parser, refsAt, hbody] at hmatched
    cases hmatched

theorem not_reads_ref {i : ι} {s u : Bytes} {a : τ i} :
    ¬ (defs.reader 0 input).Reads (.ref i) s a u := by
  rintro ⟨_, _, h⟩
  cases h

end Definitions

namespace Outcome

variable {α : Type} {input : Input} {outcome : Outcome α} {v : α}

theorem report_ne_ok (offset : Int) (trailing : Bool) :
    (judge.report input offset trailing : Except Halt (Except Error α)) ≠ .ok (.ok v) := by
  unfold judge.report
  split <;> simp

theorem judge_eq_ok : outcome.judge input false = .ok (.ok v) ↔ outcome = .success v input.size := by
  cases outcome with
  | success w next =>
    simp only [judge, Outcome.success.injEq]
    by_cases hnext : next = input.size
    · simp [hnext]
    · rw [if_pos ⟨hnext, trivial⟩]
      constructor
      · exact fun h => absurd h (report_ne_ok _ _)
      · exact fun h => absurd h.2 hnext
  | miss next =>
    constructor
    · exact fun h => absurd h (report_ne_ok _ _)
    · nofun
  | fatal | halted => constructor <;> nofun

/-- Only a match gives a value, with or without trailing text. -/
theorem exists_of_judge_eq_ok {allowTrailing : Bool}
    (h : outcome.judge input allowTrailing = .ok (.ok v)) : ∃ next, outcome = .success v next := by
  cases outcome with
  | success w next =>
    simp only [judge] at h
    split at h
    · exact absurd h (report_ne_ok _ _)
    · cases h
      exact ⟨next, rfl⟩
  | miss next => exact absurd h (report_ne_ok _ _)
  | fatal | halted => cases h

end Outcome

namespace Definitions

variable {ι : Type} {τ : ι → Type} {defs : Definitions τ} {names : Nat} {α : Type} {t : Term τ α}
  {text : Bytes} {v : α}

/-- What an evaluation without options reads a text with. -/
abbrev readerOf (defs : Definitions τ) (names : Nat) (text : Bytes) : Reader τ :=
  defs.reader (Definitions.depth names (Input.ofBytes [] text)) (Input.ofBytes [] text)

theorem run_start (input : Input) :
    (defs.reader (Definitions.depth names input) input).run t input.text.toList =
      (defs.parser names t input 0).outcome := by
  have hplace : Text.placeOf input.text input.text.toList = 0 := Text.placeOf_toList
  have hstart :
      (defs.reader (Definitions.depth names input) input).offsetOf input.text.toList = 0 :=
    congrArg Int.ofNat hplace
  unfold Reader.run Definitions.parser
  rw [hstart, parserAt_eq]
  rfl

theorem run_readerOf : (defs.readerOf names text).run t text =
    (defs.parser names t (Input.ofBytes [] text) 0).outcome :=
  run_start (Input.ofBytes [] text)

theorem evaluate_eq_judge : ((defs.parser names t).evaluate text []).result =
    ((defs.readerOf names text).run t text).judge (Input.ofBytes [] text) false := by
  rw [run_readerOf]
  rfl

/-- A text that is missed is reported as unexpected. -/
theorem exists_unexpected (h : (defs.readerOf names text).Rejects t text) : ∃ position near,
    ((defs.parser names t).evaluate text []).result =
      .ok (.error (.unexpected position near false)) := by
  obtain ⟨_, next, hmiss⟩ := h
  have hbounds := ((defs.readerOf names text).run_within t text).missed next hmiss
  have hnext : 0 ≤ next := Reader.offsetOf_nonneg.trans hbounds.1
  obtain ⟨near, hnear⟩ := @Outcome.exists_report α (Input.ofBytes [] text) next hnext false
  refine ⟨(Input.ofBytes [] text).position next, near, ?_⟩
  rw [evaluate_eq_judge, hmiss]
  exact hnear

/-- A run from the start of an input is judged well if the input is read to its end. -/
theorem judge_eq_ok (input : Input) :
    (defs.parser names t input 0).outcome.judge input false = .ok (.ok v) ↔
      (defs.reader (Definitions.depth names input) input).Reads t input.text.toList v [] := by
  rw [Outcome.judge_eq_ok, ← run_start]
  constructor
  · exact fun h => ⟨List.suffix_rfl, List.nil_suffix, h⟩
  · exact fun h => h.matched

/-- Evaluating without options succeeds if the text is read to its end. -/
theorem evaluate_eq_ok : ((defs.parser names t).evaluate text []).result = .ok (.ok v) ↔
    (defs.readerOf names text).Reads t text v [] := judge_eq_ok (Input.ofBytes [] text)

/-- Evaluating under a name succeeds if the text is read to its end. -/
theorem evaluate_named_eq_ok {name : Bytes} :
    ((defs.parser names t).evaluate text [.filename name]).result = .ok (.ok v) ↔
      (defs.reader (Definitions.depth names (Input.ofBytes name text))
        (Input.ofBytes name text)).Reads t text v [] :=
  judge_eq_ok (Input.ofBytes name text)

/-- Whatever was requested, a value comes from reading the text, perhaps not to its end. -/
theorem reads_of_evaluate {requests : List Setting}
    (h : ((defs.parser names t).evaluate text requests).result = .ok (.ok v)) :
    ∃ input, input.text.toList = text ∧
      ∃ u, (defs.reader (Definitions.depth names input) input).Reads t text v u := by
  unfold Parser.evaluate at h
  split at h
  · cases h
  · rename_i settings _
    obtain ⟨next, hmatched⟩ := Outcome.exists_of_judge_eq_ok h
    refine ⟨.ofBytes settings.filename text, rfl, ?_⟩
    rw [← run_start] at hmatched
    obtain ⟨u, hread, _⟩ := Reader.reads_of_success List.suffix_rfl hmatched
    exact ⟨u, hread⟩

end Definitions

end Backtrack
