import Backtrack.Proofs.Parser.Abort
import Backtrack.Proofs.Parser.Tokens

/-!
# Runs that come to something

A run settles if it matches, misses or aborts, so that it does not break down and does not use up
the bound on the depth of references. Each combinator settles where its parts do, and where a part
is run only behind a match of another one, only those places count. This is what lets a grammar that
consumes something before every reference to itself settle everywhere.

A term that settles and cannot miss has only two ways to end, of which one is an error.
-/

namespace Backtrack

namespace Run

variable {α β : Type} {r : Run α} {why : Halt}

theorem onSuccess_eq_halted {f : α → Int → Run β} :
    (r.onSuccess f).outcome = .halted why ↔ r.outcome = .halted why ∨
      ∃ a middle, r.outcome = .success a middle ∧ (f a middle).outcome = .halted why := by
  obtain ⟨outcome, trace⟩ := r
  cases outcome <;> simp [onSuccess, after]

theorem onMiss_eq_halted {f : Int → Run α} :
    (r.onMiss f).outcome = .halted why ↔ r.outcome = .halted why ∨
      ∃ missed, r.outcome = .miss missed ∧ (f missed).outcome = .halted why := by
  obtain ⟨outcome, trace⟩ := r
  cases outcome <;> simp [onMiss, after]

end Run

/-- No breakdown is tolerated, and errors may be about anything. -/
def Contract.unbroken : Contract := ⟨False, fun _ => False⟩

namespace Reader

open Text

variable {ι : Type} {τ : ι → Type} {α β γ : Type}

/-- The run of a term where a suffix of the text begins does not halt. -/
def Settles (rd : Reader τ) (t : Term τ α) (s : Bytes) : Prop :=
  ∀ why, rd.run t s ≠ .halted why

variable {rd : Reader τ} {s u : Bytes} {p : Term τ α} {q : Term τ β}

theorem settles_of_within {t : Term τ α} (h : (t.parser rd.refs).Within .unbroken) :
    rd.Settles t s := (h rd.input _ offsetOf_nonneg offsetOf_le).broken

theorem settles_satisfy (condition : Char → Bool) : rd.Settles (.satisfy condition) s :=
  settles_of_within (Parser.within_satisfy condition)

theorem settles_literal (text : Bytes) : rd.Settles (.literal text) s :=
  settles_of_within (Parser.within_literal text)

theorem settles_pattern (r : Regex) : rd.Settles (.pattern r) s :=
  settles_of_within (Parser.within_pattern r)

theorem settles_atEnd : rd.Settles .atEnd s :=
  settles_of_within Parser.within_atEnd

/-- The second of two terms has to settle only where the first leaves off. -/
theorem settles_and (hs : s <:+ rd.bytes) (hp : rd.Settles p s)
    (hq : ∀ a m, rd.Reads p s a m → rd.Settles q m) : rd.Settles (p.and q) s := by
  intro why h
  rcases Run.onSuccess_eq_halted.mp h with h | ⟨a, middle, ha, h⟩
  · exact hp why h
  · obtain ⟨m, hm, rfl⟩ := reads_of_success hs ha
    rcases Run.onSuccess_eq_halted.mp h with h | ⟨_, _, _, h⟩
    · exact hq a m hm why h
    · cases h

theorem settles_map (f : α → β) (h : rd.Settles p s) : rd.Settles (p.map f) s := by
  intro why hhalted
  rcases Run.onSuccess_eq_halted.mp hhalted with hhalted | ⟨_, _, _, hhalted⟩
  · exact h why hhalted
  · cases hhalted

theorem settles_mapErr (f : α → Except Error β) (h : rd.Settles p s) :
    rd.Settles (p.mapErr f) s := by
  intro why hhalted
  rcases Run.onSuccess_eq_halted.mp hhalted with hhalted | ⟨a, _, _, hhalted⟩
  · exact h why hhalted
  · split at hhalted
    · cases hhalted
    · rename_i error _
      obtain ⟨e, he⟩ := rd.input.annotate_isOk (rd.offsetOf_nonneg (s := s)) (some error)
      rw [he] at hhalted
      cases hhalted

theorem settles_value (b : β) (h : rd.Settles p s) : rd.Settles (p.value b) s := settles_map _ h

theorem settles_skipLeft (hs : s <:+ rd.bytes) (hp : rd.Settles p s)
    (hq : ∀ a m, rd.Reads p s a m → rd.Settles q m) : rd.Settles (p.skipLeft q) s :=
  settles_map _ (settles_and hs hp hq)

theorem settles_skipRight (hs : s <:+ rd.bytes) (hp : rd.Settles p s)
    (hq : ∀ a m, rd.Reads p s a m → rd.Settles q m) : rd.Settles (p.skipRight q) s :=
  settles_map _ (settles_and hs hp hq)

theorem settles_named (name : Bytes) (h : rd.Settles p s) : rd.Settles (.named name p) s := h

/-- A commit point settles if its diagnostic can speak of every offset of the text. -/
theorem settles_commit {diagnostic : Diagnostic}
    (hd : ∀ offset, 0 ≤ offset → ∃ error, diagnostic rd.input offset = .ok error)
    (h : rd.Settles p s) : rd.Settles (p.commit diagnostic) s := by
  intro why hhalted
  rcases Run.onMiss_eq_halted.mp hhalted with hhalted | ⟨missed, hmiss, hhalted⟩
  · exact h why hhalted
  · have hkeeps : p.Keeps .lax fun _ => none := p.keeps_lax
    have hwithin := Term.parser_within (fun i _ => rd.within i) hkeeps
    have hmissed := (hwithin rd.input _ offsetOf_nonneg offsetOf_le).missed missed hmiss
    have hpos : 0 ≤ missed := Int.le_trans offsetOf_nonneg hmissed.1
    obtain ⟨error, herror⟩ := hd missed hpos
    obtain ⟨e, he⟩ := rd.input.annotate_isOk hpos error
    rw [herror] at hhalted
    simp only [bind, Except.bind] at hhalted
    rw [he] at hhalted
    cases hhalted

theorem settles_expect (what : Bytes) (h : rd.Settles p s) : rd.Settles (p.expect what) s := by
  apply settles_commit ?_ h
  intro offset hoffset
  obtain ⟨near, hnear⟩ := rd.input.near_isOk hoffset
  exact ⟨_, by rw [hnear]; rfl⟩

theorem settles_choice {ps : List (Term τ α)} (h : ∀ p ∈ ps, rd.Settles p s) :
    rd.Settles (.choice ps) s := by
  intro why hhalted
  unfold run at hhalted
  rw [parser_choice] at hhalted
  -- The latest miss so far changes along the alternatives and does not matter.
  have hfrom : ∀ furthest, (Parser.oneOfFrom furthest (ps.map fun p => p.parser rd.refs) rd.input
      (rd.offsetOf s)).outcome ≠ .halted why := by
    clear hhalted
    induction ps with
    | nil => nofun
    | cons p ps ih =>
      intro furthest hhalted
      rcases Run.onMiss_eq_halted.mp hhalted with hhalted | ⟨_, _, hhalted⟩
      · exact h p List.mem_cons_self why hhalted
      · exact ih (fun q hq => h q (List.mem_cons_of_mem p hq)) _ hhalted
  exact hfrom _ hhalted

theorem repeatMany_ne_halted {why : Halt} {fuel : Nat} {values : List α} {trace : Trace}
    (hs : s <:+ rd.bytes) (h : ∀ m, m <:+ s → rd.Settles p m) (hfuel : s.length < fuel) :
    (Parser.repeatMany (p.parser rd.refs) rd.input fuel values trace (rd.offsetOf s)).outcome ≠
      .halted why := by
  induction fuel generalizing s values trace with
  | zero => exact absurd hfuel (Nat.not_lt_zero _)
  | succ fuel ih =>
    unfold Parser.repeatMany
    dsimp only
    split
    · rename_i a middle ha
      obtain ⟨m, hm, rfl⟩ := reads_of_success hs ha
      split
      · nofun
      · rename_i hne
        have hlt : m.length < s.length := by
          apply Nat.lt_of_not_le
          intro hle
          rw [hm.rest.eq_of_length_le hle] at hne
          exact hne rfl
        exact ih hm.finish (fun u hu => h u (hu.trans hm.rest)) (by omega)
    · nofun
    · nofun
    · rename_i why' hhalted
      exact absurd hhalted (h s List.suffix_rfl why')

theorem settles_many0 (hs : s <:+ rd.bytes) (h : ∀ m, m <:+ s → rd.Settles p m) :
    rd.Settles p.many0 s := by
  intro why
  have hlength := placeOf_add_length hs
  have hplace : rd.offsetOf s = (placeOf rd.input.text s : Nat) := rfl
  have hsize : rd.input.text.size = rd.input.size := rfl
  exact repeatMany_ne_halted hs h (by omega)

theorem settles_spaces (hs : s <:+ rd.bytes) : rd.Settles .spaces s :=
  settles_many0 hs fun _ _ => settles_satisfy _

theorem settles_trim (hs : s <:+ rd.bytes) (h : rd.Settles p (skip s)) : rd.Settles p.trim s := by
  apply settles_skipRight hs
  · apply settles_skipLeft hs (settles_spaces hs)
    intro _ m hm
    rw [reads_spaces hm]
    exact h
  · intro _ m hm
    exact settles_spaces hm.finish

end Reader

namespace Definitions

variable {ι : Type} {τ : ι → Type} {defs : Definitions τ} {α : Type}

theorem settles_ref {depth : Nat} {input : Input} {i : ι} {body : Term τ (τ i)}
    (hbody : defs i = some body) {s : Bytes} (h : (defs.reader depth input).Settles body s) :
    (defs.reader (depth + 1) input).Settles (.ref i) s := by
  intro why hhalted
  rw [run_ref hbody] at hhalted
  exact h why hhalted

/-- Evaluating comes to an error of the grammar if the text neither matches nor is missed. -/
theorem evaluate_eq_error {names : Nat} {t : Term τ α} {text : Bytes}
    (hsettles : (defs.readerOf names text).Settles t text)
    (hmiss : ¬ (defs.readerOf names text).Rejects t text)
    (hmatch : ∀ v u, ¬ (defs.readerOf names text).Reads t text v u) :
    ∃ e : ParseError, ((defs.parser names t).evaluate text []).result = .ok (.error e.toError) := by
  have hs : text <:+ (defs.readerOf names text).bytes := List.suffix_rfl
  cases houtcome : (defs.readerOf names text).run t text with
  | success v next =>
    obtain ⟨u, hread, _⟩ := Reader.reads_of_success hs houtcome
    exact absurd hread (hmatch v u)
  | miss next => exact absurd ⟨hs, next, houtcome⟩ hmiss
  | fatal e => exact ⟨e, Parser.evaluate_of_fatal rfl (run_readerOf.symm.trans houtcome)⟩
  | halted why => exact absurd houtcome (hsettles why)

end Definitions

end Backtrack
