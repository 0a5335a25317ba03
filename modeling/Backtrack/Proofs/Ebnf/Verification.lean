import Backtrack.Ebnf.Compile
import Backtrack.Proofs.Text.Characters

/-!
# What verification establishes

What compiled parsers rely on is that a verified grammar has its start production, that every
reference has a production, which is lexical if the reference stands in a lexical one, and that every
range goes upwards from one character to another. Any verification will do that lets no other grammar
through.

The one at hand visits productions from the start on. It loses none: each is visited in the end, or
reported as out of reach. So a grammar without problems has productions without problems only.
-/

namespace Backtrack.Ebnf

/-- An expression no part of which is missing. -/
inductive Expression.Whole : Expression → Prop where
  | name (position : Position) (target : Bytes) : Whole (.name position target)
  | token (t : Terminal) : Whole (.token t)
  | range (first last : Terminal) : Whole (.range first last)
  | group (position : Position) {body : Expression} (h : Whole body) : Whole (.group position body)
  | option (position : Position) {body : Expression} (h : Whole body) :
    Whole (.option position body)
  | repetition (position : Position) {body : Expression} (h : Whole body) :
    Whole (.repetition position body)
  | sequence {parts : List Expression} (h : ∀ e ∈ parts, Whole e) : Whole (.sequence parts)
  | alternative {parts : List Expression} (h : ∀ e ∈ parts, Whole e) : Whole (.alternative parts)

/-- A range that goes upwards from one character to another. -/
def Upwards (first last : Terminal) : Prop :=
  ∃ a b, Utf8.chars first.text = [a] ∧ Utf8.chars last.text = [b] ∧ a.toNat < b.toNat

/-- An expression of a production that is lexical or not, with references and ranges as they should
be. Parts that could not be read are not looked at. -/
inductive Expression.Verified (grammar : Grammar) (lexical : Bool) : Expression → Prop where
  | name (position : Position) {target : Bytes} (hdefined : (grammar.find? target).isSome)
      (hlexical : lexical = true → isLexical target = true) :
    Verified grammar lexical (.name position target)
  | token (t : Terminal) : Verified grammar lexical (.token t)
  | range {first last : Terminal} (h : Upwards first last) :
    Verified grammar lexical (.range first last)
  | group (position : Position) {body : Expression} (h : Verified grammar lexical body) :
    Verified grammar lexical (.group position body)
  | option (position : Position) {body : Expression} (h : Verified grammar lexical body) :
    Verified grammar lexical (.option position body)
  | repetition (position : Position) {body : Expression} (h : Verified grammar lexical body) :
    Verified grammar lexical (.repetition position body)
  | sequence {parts : List Expression} (h : ∀ e ∈ parts, Verified grammar lexical e) :
    Verified grammar lexical (.sequence parts)
  | alternative {parts : List Expression} (h : ∀ e ∈ parts, Verified grammar lexical e) :
    Verified grammar lexical (.alternative parts)
  | bad (position : Position) (problem : Bytes) : Verified grammar lexical (.bad position problem)

structure Grammar.Verified (grammar : Grammar) (start : Bytes) : Prop where
  start : (grammar.find? start).isSome
  bodies : ∀ p ∈ grammar, ∀ body ∈ p.body, body.Verified grammar (isLexical p.name)

/-- A verification that lets only grammars through that are as they should be. -/
def Reliable (verify : Grammar → Bytes → Except Bytes Unit) : Prop :=
  ∀ grammar start, verify grammar start = .ok () → grammar.Verified start

namespace Frontier

def pending (f : Frontier) : List Production := f.waiting ++ f.unseen

theorem discover_perm (f : Frontier) (name : Bytes) : (f.discover name).pending.Perm f.pending := by
  unfold discover pending
  rw [List.partition_eq_filter_filter]
  have hsplit := List.filter_append_perm (fun p : Production => p.name = name) f.unseen
  apply (List.perm_append_comm.append_right _).trans
  rw [List.append_assoc]
  exact hsplit.append_left f.waiting

theorem foldl_discover_perm (names : List Bytes) (f : Frontier) :
    (names.foldl discover f).pending.Perm f.pending := by
  induction names generalizing f with
  | nil => exact List.Perm.refl _
  | cons name names ih => exact (ih (f.discover name)).trans (f.discover_perm name)

/-- No production is lost. -/
theorem mem_visit (fuel : Nat) (f : Frontier) (hfuel : f.pending.length ≤ fuel) {p : Production}
    (hp : p ∈ f.pending) : p ∈ (visit fuel f).1 ∨ p ∈ (visit fuel f).2 := by
  induction fuel generalizing f with
  | zero =>
    rw [List.eq_nil_of_length_eq_zero (Nat.le_zero.mp hfuel)] at hp
    exact absurd hp List.not_mem_nil
  | succ fuel ih =>
    obtain ⟨waiting, unseen⟩ := f
    cases waiting with
    | nil => exact .inr hp
    | cons q waiting =>
      have hperm := foldl_discover_perm q.names ⟨waiting, unseen⟩
      rcases List.mem_cons.mp hp with rfl | hp
      · exact .inl List.mem_cons_self
      · have hlength := hperm.length_eq
        have hrest := ih _ (by
          rw [hlength]
          exact Nat.le_of_succ_le_succ hfuel) (hperm.mem_iff.mpr hp)
        exact hrest.imp_left (List.mem_cons_of_mem q)

end Frontier

namespace Grammar

variable {grammar : Grammar} {start : Bytes}

variable (grammar start) in
theorem mem_reach {p : Production} (hp : p ∈ grammar) :
    p ∈ (grammar.reach start).1 ∨ p ∈ (grammar.reach start).2 := by
  have hperm := Frontier.discover_perm ⟨[], grammar⟩ start
  apply Frontier.mem_visit
  · exact Nat.le_of_eq hperm.length_eq
  · exact hperm.mem_iff.mpr hp

theorem problems_eq_nil (h : grammar.verify start = .ok ()) : grammar.problems start = [] := by
  unfold verify at h
  split at h
  · assumption
  · cases h

/-- A grammar that is accepted has only productions that are free of problems. -/
theorem problems_of_verify (h : grammar.verify start = .ok ()) {p : Production} (hp : p ∈ grammar) :
    p.problems grammar = [] := by
  have hnone := problems_eq_nil h
  unfold problems at hnone
  split at hnone
  · cases hnone
  · obtain ⟨hvisited, hunseen⟩ := List.append_eq_nil_iff.mp hnone
    rcases grammar.mem_reach start hp with hp | hp
    · exact List.flatMap_eq_nil_iff.mp hvisited p hp
    · have hmem := List.mem_map_of_mem (f := fun p => Problem.unreachable p.position p.name) hp
      exact absurd hmem (List.eq_nil_iff_forall_not_mem.mp hunseen _)

theorem find?_name {name : Bytes} {p : Production} (h : grammar.find? name = some p) :
    p ∈ grammar ∧ p.name = name := by
  have hname := List.find?_some h
  exact ⟨List.mem_of_find?_eq_some h, of_decide_eq_true hname⟩

theorem isSome_of_verify (h : grammar.verify start = .ok ()) : (grammar.find? start).isSome := by
  have hnone := problems_eq_nil h
  unfold problems at hnone
  split at hnone
  · cases hnone
  · rename_i hstart
    cases hfind : grammar.find? start with
    | none => exact absurd (hfind ▸ rfl) hstart
    | some => rfl

theorem compileBy_eq_ok {verify : Grammar → Bytes → Except Bytes Unit} {parser : Parser Bytes}
    (h : grammar.compileBy verify start = .ok parser) :
    verify grammar start = .ok () ∧ parser = grammar.parser start := by
  unfold compileBy at h
  split at h
  · cases h
  · rename_i hverify
    split at h
    · cases h
    · cases h
      exact ⟨hverify, rfl⟩

end Grammar

theorem firstCode_of_chars {text : Bytes} {c : Char} (h : Utf8.chars text = [c]) :
    firstCode text = c.toNat := by
  have hne : text ≠ [] := by
    intro hnil
    rw [hnil] at h
    cases h
  obtain ⟨d, n, hd⟩ := Utf8.exists_decode? hne
  rw [Utf8.chars_of_decode? hd] at h
  obtain ⟨rfl, _⟩ := List.cons.inj h
  unfold firstCode
  rw [hd]

theorem rangeEnd_eq_nil {t : Terminal} (h : t.rangeEnd.2 = []) :
    ∃ c, Utf8.chars t.text = [c] ∧ t.rangeEnd.1 = c.toNat := by
  unfold Terminal.rangeEnd at h ⊢
  split at h
  · rename_i c hc
    rw [hc]
    exact ⟨c, rfl, rfl⟩
  · cases h

theorem upwards_of_problems {first last : Terminal} (h : rangeProblems first last = []) :
    Upwards first last := by
  obtain ⟨hends, hincreasing⟩ := List.append_eq_nil_iff.mp h
  obtain ⟨hbelow, habove⟩ := List.append_eq_nil_iff.mp hends
  obtain ⟨a, ha, hfirst⟩ := rangeEnd_eq_nil hbelow
  obtain ⟨b, hb, hlast⟩ := rangeEnd_eq_nil habove
  refine ⟨a, b, ha, hb, ?_⟩
  apply Nat.lt_of_not_le
  intro hle
  have hdecreasing : (if last.rangeEnd.1 ≤ first.rangeEnd.1
      then [Problem.decreasing first.position] else []) = [] := hincreasing
  rw [hfirst, hlast, if_pos hle] at hdecreasing
  cases hdecreasing

theorem verified_of_referenceProblems {grammar : Grammar} {lexical : Bool} {position : Position}
    {name : Bytes} (h : referenceProblems grammar lexical position name = []) :
    Expression.Verified grammar lexical (.name position name) := by
  obtain ⟨hmissing, hlexical⟩ := List.append_eq_nil_iff.mp h
  refine .name position ?_ ?_
  · split at hmissing
    · assumption
    · cases hmissing
  · rintro rfl
    cases hname : isLexical name with
    | true => rfl
    | false =>
      rw [hname] at hlexical
      cases hlexical

mutual

/-- An expression without problems is as it should be, and has been read whole. -/
theorem Expression.verified_of_problems {grammar : Grammar} {lexical : Bool} : (e : Expression) →
    e.problems grammar lexical = [] → e.Verified grammar lexical ∧ e.Whole
  | .name position target, h => ⟨verified_of_referenceProblems h, .name position target⟩
  | .token t, _ => ⟨.token t, .token t⟩
  | .range first last, h => ⟨.range (upwards_of_problems h), .range first last⟩
  | .group position body, h =>
    (body.verified_of_problems h).imp (.group position) (.group position)
  | .option position body, h =>
    (body.verified_of_problems h).imp (.option position) (.option position)
  | .repetition position body, h =>
    (body.verified_of_problems h).imp (.repetition position) (.repetition position)
  | .sequence parts, h =>
    have hall := verified_of_problemsOfAll parts h
    ⟨.sequence fun e he => (hall e he).1, .sequence fun e he => (hall e he).2⟩
  | .alternative parts, h =>
    have hall := verified_of_problemsOfAll parts h
    ⟨.alternative fun e he => (hall e he).1, .alternative fun e he => (hall e he).2⟩

theorem verified_of_problemsOfAll {grammar : Grammar} {lexical : Bool} : (es : List Expression) →
    Expression.problems.problemsOfAll grammar lexical es = [] →
      ∀ e ∈ es, e.Verified grammar lexical ∧ e.Whole
  | [], _ => nofun
  | e :: es, h => by
    obtain ⟨he, hes⟩ := List.append_eq_nil_iff.mp h
    exact List.forall_mem_cons.mpr ⟨e.verified_of_problems he, verified_of_problemsOfAll es hes⟩

end

namespace Grammar

variable {grammar : Grammar} {start : Bytes}

theorem bodies_of_verify (h : grammar.verify start = .ok ()) :
    ∀ p ∈ grammar, ∀ body ∈ p.body, body.Verified grammar (isLexical p.name) ∧ body.Whole := by
  intro p hp body hbody
  have hnone := problems_of_verify h hp
  unfold Production.problems at hnone
  rw [hbody] at hnone
  exact body.verified_of_problems hnone

theorem whole_of_verify (h : grammar.verify start = .ok ()) :
    ∀ p ∈ grammar, ∀ body ∈ p.body, body.Whole :=
  fun p hp body hbody => (bodies_of_verify h p hp body hbody).2

end Grammar

theorem reliable_verify : Reliable Grammar.verify := fun _ _ h =>
  ⟨Grammar.isSome_of_verify h, fun p hp body hbody => (Grammar.bodies_of_verify h p hp body hbody).1⟩

end Backtrack.Ebnf
