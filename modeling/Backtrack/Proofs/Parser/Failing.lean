import Mathlib.Logic.Relation
import Backtrack.Proofs.Parser.Tokens

/-!
# Runs that do not match

Where a term misses and which error it aborts with, in terms of its parts. Misses and errors are
told by `Reader.run`, since here the offsets count.
-/

namespace Backtrack

namespace Run

variable {α β : Type} {r : Run α} {e : ParseError}

theorem onSuccess_eq_fatal {f : α → Int → Run β} :
    (r.onSuccess f).outcome = .fatal e ↔ r.outcome = .fatal e ∨
      ∃ a middle, r.outcome = .success a middle ∧ (f a middle).outcome = .fatal e := by
  obtain ⟨outcome, trace⟩ := r
  cases outcome <;> simp [onSuccess, after]

theorem onMiss_eq_fatal {f : Int → Run α} :
    (r.onMiss f).outcome = .fatal e ↔ r.outcome = .fatal e ∨
      ∃ missed, r.outcome = .miss missed ∧ (f missed).outcome = .fatal e := by
  obtain ⟨outcome, trace⟩ := r
  cases outcome <;> simp [onMiss, after]

end Run

namespace Reader

open Text

variable {ι : Type} {τ : ι → Type} {α β : Type} {rd : Reader τ} {s u : Bytes} {n : Int}
  {e : ParseError}

section Sequence

variable {p : Term τ α} {q : Term τ β}

theorem rejects_of_miss (hs : s <:+ rd.bytes) (h : rd.run p s = .miss n) : rd.Rejects p s :=
  ⟨hs, n, h⟩

theorem miss_and (hs : s <:+ rd.bytes) (h : rd.run (p.and q) s = .miss n) :
    rd.run p s = .miss n ∨ ∃ a m, rd.Reads p s a m ∧ rd.run q m = .miss n := by
  rcases Run.onSuccess_eq_miss.mp h with h | ⟨a, middle, ha, h⟩
  · exact .inl h
  · obtain ⟨m, hm, rfl⟩ := reads_of_success hs ha
    rcases Run.onSuccess_eq_miss.mp h with h | ⟨_, _, _, h⟩
    · exact .inr ⟨a, m, hm, h⟩
    · cases h

theorem fatal_and (hs : s <:+ rd.bytes) (h : rd.run (p.and q) s = .fatal e) :
    rd.run p s = .fatal e ∨ ∃ a m, rd.Reads p s a m ∧ rd.run q m = .fatal e := by
  rcases Run.onSuccess_eq_fatal.mp h with h | ⟨a, middle, ha, h⟩
  · exact .inl h
  · obtain ⟨m, hm, rfl⟩ := reads_of_success hs ha
    rcases Run.onSuccess_eq_fatal.mp h with h | ⟨_, _, _, h⟩
    · exact .inr ⟨a, m, hm, h⟩
    · cases h

theorem miss_map {f : α → β} (h : rd.run (p.map f) s = .miss n) : rd.run p s = .miss n := by
  rcases Run.onSuccess_eq_miss.mp h with h | ⟨_, _, _, h⟩
  · exact h
  · cases h

theorem fatal_map {f : α → β} (h : rd.run (p.map f) s = .fatal e) : rd.run p s = .fatal e := by
  rcases Run.onSuccess_eq_fatal.mp h with h | ⟨_, _, _, h⟩
  · exact h
  · cases h

theorem miss_skipLeft (hs : s <:+ rd.bytes) (h : rd.run (p.skipLeft q) s = .miss n) :
    rd.run p s = .miss n ∨ ∃ a m, rd.Reads p s a m ∧ rd.run q m = .miss n :=
  miss_and hs (miss_map h)

theorem fatal_skipLeft (hs : s <:+ rd.bytes) (h : rd.run (p.skipLeft q) s = .fatal e) :
    rd.run p s = .fatal e ∨ ∃ a m, rd.Reads p s a m ∧ rd.run q m = .fatal e :=
  fatal_and hs (fatal_map h)

theorem miss_skipRight (hs : s <:+ rd.bytes) (h : rd.run (p.skipRight q) s = .miss n) :
    rd.run p s = .miss n ∨ ∃ a m, rd.Reads p s a m ∧ rd.run q m = .miss n :=
  miss_and hs (miss_map h)

theorem fatal_skipRight (hs : s <:+ rd.bytes) (h : rd.run (p.skipRight q) s = .fatal e) :
    rd.run p s = .fatal e ∨ ∃ a m, rd.Reads p s a m ∧ rd.run q m = .fatal e :=
  fatal_and hs (fatal_map h)

theorem miss_mapErr {f : α → Except Error β} (h : rd.run (p.mapErr f) s = .miss n) :
    rd.run p s = .miss n := by
  rcases Run.onSuccess_eq_miss.mp h with h | ⟨a, _, _, h⟩
  · exact h
  · split at h
    · cases h
    · rename_i error _
      generalize rd.input.annotate (rd.offsetOf s) error = placed at h
      cases placed <;> cases h

/-- An error of a changed value is one of the term, or placed where the match starts. -/
theorem fatal_mapErr {f : α → Except Error β} (hs : s <:+ rd.bytes)
    (h : rd.run (p.mapErr f) s = .fatal e) : rd.run p s = .fatal e ∨
      ∃ a u error, rd.Reads p s a u ∧ f a = .error error ∧
        rd.input.annotate (rd.offsetOf s) (some error) = .ok e := by
  rcases Run.onSuccess_eq_fatal.mp h with h | ⟨a, middle, ha, h⟩
  · exact .inl h
  · obtain ⟨u, hu, rfl⟩ := reads_of_success hs ha
    split at h
    · cases h
    · rename_i error herror
      refine .inr ⟨a, u, error, hu, herror, ?_⟩
      revert h
      generalize rd.input.annotate (rd.offsetOf s) error = placed
      cases placed with
      | ok placed => exact fun h => congrArg Except.ok (Outcome.fatal.inj h)
      | error => nofun

end Sequence

section Commit

variable {p : Term τ α} {what : Bytes}

/-- An error of an expected term is one of the term, or placed where the term was missed. -/
theorem fatal_expect (h : rd.run (p.expect what) s = .fatal e) :
    rd.run p s = .fatal e ∨ rd.run p s = .miss e.offset := by
  rcases Run.onMiss_eq_fatal.mp h with h | ⟨missed, hmiss, h⟩
  · exact .inl h
  · cases hnear : rd.input.near missed with
    | error => simp [hnear, bind, Except.bind, Run.ofExcept, Run.fault] at h
    | ok near =>
      simp only [hnear, bind, Except.bind] at h
      obtain rfl := Outcome.fatal.inj h
      exact .inr hmiss

/-- An error of a term with a message is one of the term, or says this where the term was missed. -/
theorem fatal_expected {message : Bytes} (h : rd.run (p.expected message) s = .fatal e) :
    rd.run p s = .fatal e ∨ rd.run p s = .miss e.offset ∧ e.message = message := by
  rcases Run.onMiss_eq_fatal.mp h with h | ⟨missed, hmiss, h⟩
  · exact .inl h
  · obtain rfl := Outcome.fatal.inj h
    exact .inr ⟨hmiss, rfl⟩

end Commit

section Choice

variable {p : Term τ α} {ps : List (Term τ α)}

theorem fatal_or {q : Term τ α} (h : rd.run (p.or q) s = .fatal e) :
    rd.run p s = .fatal e ∨ rd.run q s = .fatal e := by
  rcases Run.onMiss_eq_fatal.mp h with h | ⟨_, _, h⟩
  · exact .inl h
  · rcases Run.onMiss_eq_fatal.mp h with h | ⟨_, _, h⟩
    · exact .inr h
    · cases h

theorem fatal_optional {default : α} (h : rd.run (p.optional default) s = .fatal e) :
    rd.run p s = .fatal e := by
  rcases Run.onMiss_eq_fatal.mp h with h | ⟨_, _, h⟩
  · exact h
  · cases h

theorem fatal_not (h : rd.run p.not s = .fatal e) : rd.run p s = .fatal e := by
  unfold run at h ⊢
  simp only [Term.parser, Parser.not] at h
  split at h
  · cases h
  · cases h
  · rename_i error herror
    cases h
    exact herror
  · cases h

theorem exists_of_oneOfFrom_fatal {qs : List (Parser α)} {input : Input} {offset furthest : Int}
    (h : (Parser.oneOfFrom furthest qs input offset).outcome = .fatal e) :
    ∃ q ∈ qs, (q input offset).outcome = .fatal e := by
  induction qs generalizing furthest with
  | nil => cases h
  | cons q qs ih =>
    rcases Run.onMiss_eq_fatal.mp h with h | ⟨_, _, h⟩
    · exact ⟨q, List.mem_cons_self, h⟩
    · obtain ⟨r, hr, h⟩ := ih h
      exact ⟨r, List.mem_cons_of_mem q hr, h⟩

theorem fatal_choice (h : rd.run (.choice ps) s = .fatal e) :
    ∃ p ∈ ps, rd.run p s = .fatal e := by
  unfold run at h
  rw [parser_choice] at h
  obtain ⟨q, hq, h⟩ := exists_of_oneOfFrom_fatal h
  obtain ⟨p, hp, rfl⟩ := List.mem_map.mp hq
  exact ⟨p, hp, h⟩

theorem oneOfFrom_miss {qs : List (Parser α)} {input : Input} {offset : Int}
    (hqs : ∀ q ∈ qs, ∀ n, (q input offset).outcome = .miss n → n = offset)
    (h : (Parser.oneOfFrom offset qs input offset).outcome = .miss n) :
    n = offset ∧ ∀ q ∈ qs, (q input offset).outcome = .miss offset := by
  induction qs with
  | nil =>
    cases h
    exact ⟨rfl, nofun⟩
  | cons q qs ih =>
    obtain ⟨missed, hmiss, h⟩ := Run.onMiss_eq_miss.mp h
    obtain rfl := hqs q List.mem_cons_self missed hmiss
    rw [if_neg (Int.lt_irrefl _)] at h
    obtain ⟨hn, hrest⟩ := ih (fun r hr => hqs r (List.mem_cons_of_mem q hr)) h
    exact ⟨hn, List.forall_mem_cons.mpr ⟨hmiss, hrest⟩⟩

/-- A choice of terms that miss where they start misses where it starts, and all of them miss. -/
theorem miss_choice (hps : ∀ p ∈ ps, ∀ n, rd.run p s = .miss n → n = rd.offsetOf s)
    (h : rd.run (.choice ps) s = .miss n) :
    n = rd.offsetOf s ∧ ∀ p ∈ ps, rd.run p s = .miss (rd.offsetOf s) := by
  unfold run at h
  rw [parser_choice] at h
  obtain ⟨hn, hall⟩ := oneOfFrom_miss (by
    intro q hq m hm
    obtain ⟨p, hp, rfl⟩ := List.mem_map.mp hq
    exact hps p hp m hm) h
  exact ⟨hn, fun p hp => hall _ (List.mem_map_of_mem hp)⟩

/-- One match of a term leads from one suffix to another. -/
def Links (rd : Reader τ) (p : Term τ α) (s u : Bytes) : Prop := ∃ a, rd.Reads p s a u

theorem Chain.links {as : List α} (h : rd.Chain p s as u) :
    Relation.ReflTransGen (rd.Links p) s u := by
  induction h with
  | stop => exact .refl
  | next h _ _ ih => exact .head ⟨_, h⟩ ih

theorem fatal_repeatMany {fuel : Nat} {values : List α} {trace : Trace} (hs : s <:+ rd.bytes)
    (h : (Parser.repeatMany (p.parser rd.refs) rd.input fuel values trace
      (rd.offsetOf s)).outcome = .fatal e) :
    ∃ m, Relation.ReflTransGen (rd.Links p) s m ∧ m <:+ rd.bytes ∧ rd.run p m = .fatal e := by
  induction fuel generalizing s values trace with
  | zero => cases h
  | succ fuel ih =>
    unfold Parser.repeatMany at h
    dsimp only at h
    split at h
    · rename_i a middle ha
      obtain ⟨m, hm, rfl⟩ := reads_of_success hs ha
      split at h
      · cases h
      · obtain ⟨m', hlinks, hm', h⟩ := ih hm.finish h
        exact ⟨m', .head ⟨a, hm⟩ hlinks, hm', h⟩
    · cases h
    · rename_i error herror
      cases h
      exact ⟨s, .refl, hs, herror⟩
    · cases h

/-- An error of a repetition is one of the term behind some matches of it. -/
theorem fatal_many0 (hs : s <:+ rd.bytes) (h : rd.run p.many0 s = .fatal e) :
    ∃ m, Relation.ReflTransGen (rd.Links p) s m ∧ m <:+ rd.bytes ∧ rd.run p m = .fatal e :=
  fatal_repeatMany hs h

end Choice

section Tokens

variable {p : Term τ α} {condition : Char → Bool} {r : Regex} {text : Bytes}

theorem not_fatal_satisfy (hs : s <:+ rd.bytes) : rd.run (.satisfy condition) s ≠ .fatal e := by
  rw [run_satisfy hs]
  split
  · split <;> nofun
  · nofun

theorem miss_satisfy (hs : s <:+ rd.bytes) (h : rd.run (.satisfy condition) s = .miss n) :
    n = rd.offsetOf s := by
  rw [run_satisfy hs] at h
  split at h
  · split at h
    · cases h
    · exact (Outcome.miss.inj h).symm
  · exact (Outcome.miss.inj h).symm

theorem not_fatal_literal (hs : s <:+ rd.bytes) : rd.run (.literal text) s ≠ .fatal e := by
  rw [run_literal hs]
  split <;> nofun

theorem miss_literal (hs : s <:+ rd.bytes) (h : rd.run (.literal text) s = .miss n) :
    n = rd.offsetOf s := by
  rw [run_literal hs] at h
  split at h
  · cases h
  · exact (Outcome.miss.inj h).symm

theorem not_fatal_pattern (hr : r.isAnchored = true) : rd.run (.pattern r) s ≠ .fatal e := by
  rw [run_pattern hr]
  split <;> nofun

theorem miss_pattern (hr : r.isAnchored = true) (h : rd.run (.pattern r) s = .miss n) :
    n = rd.offsetOf s := by
  rw [run_pattern hr] at h
  split at h
  · cases h
  · exact (Outcome.miss.inj h).symm

theorem not_fatal_literals {texts : List Bytes} (hs : s <:+ rd.bytes) :
    rd.run (.literals texts) s ≠ .fatal e := by
  intro h
  obtain ⟨p, hp, h⟩ := fatal_choice h
  obtain ⟨text, _, rfl⟩ := List.mem_map.mp hp
  exact not_fatal_literal hs h

theorem miss_literals {texts : List Bytes} (hs : s <:+ rd.bytes)
    (h : rd.run (.literals texts) s = .miss n) :
    n = rd.offsetOf s ∧ ∀ text ∈ texts, ¬ text <+: s := by
  obtain ⟨hn, hall⟩ := miss_choice (by
    intro p hp n hn
    obtain ⟨text, _, rfl⟩ := List.mem_map.mp hp
    exact miss_literal hs hn) h
  refine ⟨hn, fun text htext => ?_⟩
  have hmiss := hall _ (List.mem_map_of_mem htext)
  exact (rejects_literal_iff.mp (rejects_of_miss hs hmiss)).2

theorem reads_literals {texts : List Bytes} {text : Bytes}
    (h : rd.Reads (.literals texts) s text u) : text ∈ texts ∧ s = text ++ u := by
  obtain ⟨p, hp, h⟩ := exists_of_reads_choice h
  obtain ⟨word, hword, rfl⟩ := List.mem_map.mp hp
  obtain ⟨_, hs, rfl⟩ := reads_literal.mp h
  exact ⟨hword, hs⟩

theorem not_fatal_spaces (hs : s <:+ rd.bytes) : rd.run .spaces s ≠ .fatal e := by
  intro h
  obtain ⟨m, _, hm, h⟩ := fatal_many0 hs h
  exact not_fatal_satisfy hm h

/-- A trimmed term misses where the term does behind the blanks. -/
theorem miss_trim (hs : s <:+ rd.bytes) (h : rd.run p.trim s = .miss n) :
    rd.run p (skip s) = .miss n := by
  rcases miss_skipRight hs h with h | ⟨_, m, hm, h⟩
  · rcases miss_skipLeft hs h with h | ⟨_, m, hm, h⟩
    · exact absurd (rejects_of_miss hs h) not_rejects_many0
    · rwa [reads_spaces hm] at h
  · exact absurd (rejects_of_miss hm.finish h) not_rejects_many0

theorem fatal_trim (hs : s <:+ rd.bytes) (h : rd.run p.trim s = .fatal e) :
    rd.run p (skip s) = .fatal e := by
  rcases fatal_skipRight hs h with h | ⟨_, m, hm, h⟩
  · rcases fatal_skipLeft hs h with h | ⟨_, m, hm, h⟩
    · exact absurd h (not_fatal_spaces hs)
    · rwa [reads_spaces hm] at h
  · exact absurd h (not_fatal_spaces hm.finish)

end Tokens

end Reader

end Backtrack
