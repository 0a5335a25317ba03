import Backtrack.Proofs.Ebnf.Language
import Backtrack.Proofs.Ebnf.Verification
import Backtrack.Proofs.Parser.Tokens

/-!
# Compiled grammars read their own language

What the term of an expression reads is a text of the expression, and so for productions by
induction on how deep references are followed. Alternatives in order and repetitions that take as
much as they can only choose among the derivations that there are.

This module does NOT show that every text of the language is read, which is false: an alternative
that matches keeps those behind it from being tried.
-/

namespace Backtrack.Ebnf

open Text

variable {rd : Backtrack.Reader valueType} {grammar : Grammar} {lexical : Bool}

theorem sound_terminal {α : Type} {p : Term valueType α} {L : Bytes → Prop}
    (hp : rd.Sound p fun _ => L) :
    rd.Sound (terminal lexical p) fun _ t => ∃ gap text, t = gap ++ text ∧ Gap lexical gap ∧
      L text := by
  intro s v u h
  cases lexical with
  | true =>
    obtain ⟨⟨_, hread⟩, _⟩ := Backtrack.Reader.reads_value.mp h
    obtain ⟨t, rfl, ht⟩ := hp hread
    exact ⟨t, rfl, [], t, rfl, gap_nil true, ht⟩
  | false =>
    obtain ⟨_, m, hspaces, hvalue⟩ := Backtrack.Reader.reads_skipLeft.mp h
    obtain ⟨⟨_, hspaces⟩, _⟩ := Backtrack.Reader.reads_value.mp hspaces
    obtain ⟨⟨_, hread⟩, _⟩ := Backtrack.Reader.reads_value.mp hvalue
    obtain ⟨gap, hgap, hs⟩ := exists_blanks s
    obtain ⟨t, hm, ht⟩ := hp hread
    rw [Backtrack.Reader.reads_spaces hspaces] at hm
    rw [hm, ← List.append_assoc] at hs
    exact ⟨gap ++ t, hs, gap, t, rfl, ⟨hgap, nofun⟩, ht⟩

theorem sound_literal (text : Bytes) :
    rd.Sound (.literal text) fun _ t => t = text := by
  intro s v u h
  exact ⟨text, (Backtrack.Reader.reads_literal.mp h).2.1, rfl⟩

theorem sound_range {first last : Terminal} (h : Upwards first last) :
    rd.Sound (.codeBetween (firstCode first.text) (firstCode last.text))
      fun _ t => InRange first last t := by
  intro s c u hread
  obtain ⟨_, hbetween, n, hdecode, rfl⟩ := Backtrack.Reader.reads_satisfy_iff.mp hread
  obtain ⟨a, b, ha, hb, hlt⟩ := h
  refine ⟨s.take n, (List.take_append_drop n s).symm, a, b, c, ha, hb, ?_, ?_⟩
  · exact Utf8.decode?_take_width hdecode
  · rw [firstCode_of_chars ha, firstCode_of_chars hb, decide_eq_true_eq] at hbetween
    omega

theorem exists_of_bind {ε α β : Type _} {x : Except ε α} {f : α → Except ε β} {b : β}
    (h : (x >>= f) = .ok b) : ∃ a, x = .ok a ∧ f a = .ok b := by
  cases x with
  | ok a => exact ⟨a, rfl, h⟩
  | error e => cases h

section Expressions

/-- References read texts of their productions only. -/
def SoundRefs (rd : Backtrack.Reader valueType) (grammar : Grammar) : Prop :=
  ∀ name, rd.Sound (.ref name) fun _ t => grammar.Derives name t

theorem sound_reference (hrefs : SoundRefs rd grammar) {position : Position} {name : Bytes}
    (hlexical : lexical = true → isLexical name = true) :
    rd.Sound (reference lexical name)
      fun _ t => Expression.Derives grammar lexical (.name position name) t := by
  intro s v u hread
  unfold reference at hread
  split at hread
  · rename_i hname
    obtain ⟨_, rfl, gap, text, rfl, hgap, htext⟩ := sound_terminal (hrefs name) hread
    exact ⟨_, rfl, .lexicalName hname hgap htext⟩
  · rename_i hname
    obtain ⟨t, rfl, ht⟩ := hrefs name hread
    cases lexical with
    | true => exact absurd (hlexical rfl) hname
    | false => exact ⟨t, rfl, .name (Bool.eq_false_iff.mpr hname) ht⟩

theorem sound_repetition {position : Position} {body : Expression} {rule : Rule}
    (h : rd.Sound rule fun _ t => Expression.Derives grammar lexical body t) :
    rd.Sound rule.many0
      fun _ t => Expression.Derives grammar lexical (.repetition position body) t := by
  intro s vs u hread
  obtain ⟨_, hchain⟩ := Backtrack.Reader.reads_many0.mp hread
  clear hread
  induction hchain with
  | stop => exact ⟨[], rfl, .stop⟩
  | next hfirst _ _ ih =>
    obtain ⟨t, rfl, ht⟩ := h hfirst
    obtain ⟨rest, rfl, hrest⟩ := ih hfirst.finish
    exact ⟨t ++ rest, (List.append_assoc _ _ _).symm, .again ht hrest⟩

/-- The terms of some expressions read texts of them, one after another and each by itself. -/
theorem sound_rulesOfAll {es : List Expression}
    (hes : ∀ e ∈ es, ∀ {rule}, e.rule lexical = .ok rule →
      rd.Sound rule fun _ t => e.Derives grammar lexical t)
    {rules : List Rule} (hrules : rulesOfAll lexical es = .ok rules) :
    (rd.Sound (.sequenceOf rules) fun _ t => Expression.Derives grammar lexical (.sequence es) t) ∧
      ∀ rule ∈ rules, ∃ e ∈ es, rd.Sound rule fun _ t => e.Derives grammar lexical t := by
  induction es generalizing rules with
  | nil =>
    cases hrules
    refine ⟨?_, nofun⟩
    intro s vs u h
    obtain ⟨_, rfl, _⟩ := Backtrack.Reader.reads_sequenceOf_nil.mp h
    exact ⟨[], rfl, .nil⟩
  | cons e es ih =>
    obtain ⟨rule, hrule, hrules⟩ := exists_of_bind hrules
    obtain ⟨rest, hrest, hrules⟩ := exists_of_bind hrules
    cases hrules
    have hsound := hes e List.mem_cons_self hrule
    obtain ⟨hsequence, hparts⟩ := ih (fun e' he' => hes e' (List.mem_cons_of_mem e he')) hrest
    constructor
    · intro s vs u h
      obtain ⟨_, m, _, h, hm, _⟩ := Backtrack.Reader.reads_sequenceOf_cons.mp h
      obtain ⟨t, rfl, ht⟩ := hsound h
      obtain ⟨more, rfl, hmore⟩ := hsequence hm
      exact ⟨t ++ more, (List.append_assoc _ _ _).symm, .cons ht hmore⟩
    · intro q hq
      rcases List.mem_cons.mp hq with rfl | hq
      · exact ⟨e, List.mem_cons_self, hsound⟩
      · obtain ⟨e', he', hsound'⟩ := hparts q hq
        exact ⟨e', List.mem_cons_of_mem e he', hsound'⟩

/-- The term of a verified expression reads texts of the expression only. -/
theorem sound_rule (hrefs : SoundRefs rd grammar) {e : Expression}
    (he : e.Verified grammar lexical) {rule : Rule} (hrule : e.rule lexical = .ok rule) :
    rd.Sound rule fun _ t => e.Derives grammar lexical t := by
  induction he generalizing rule with
  | name position _ hlexical =>
    cases hrule
    exact sound_reference hrefs hlexical
  | token t =>
    cases hrule
    intro s v u h
    obtain ⟨_, rfl, gap, _, rfl, hgap, rfl⟩ := sound_terminal (sound_literal t.text) h
    exact ⟨_, rfl, .token hgap⟩
  | range hrange =>
    cases hrule
    intro s v u h
    obtain ⟨_, rfl, gap, text, rfl, hgap, htext⟩ := sound_terminal (sound_range hrange) h
    exact ⟨_, rfl, .range hgap htext⟩
  | group position _ ih =>
    intro s v u h
    obtain ⟨t, rfl, ht⟩ := ih hrule h
    exact ⟨t, rfl, .group ht⟩
  | option position _ ih =>
    obtain ⟨inner, hinner, hrule⟩ := exists_of_bind hrule
    cases hrule
    intro s v u h
    rcases Backtrack.Reader.reads_optional.mp h with h | ⟨_, rfl, _⟩
    · obtain ⟨t, rfl, ht⟩ := ih hinner h
      exact ⟨t, rfl, .option ht⟩
    · exact ⟨[], rfl, .leftOut⟩
  | repetition position _ ih =>
    obtain ⟨inner, hinner, hrule⟩ := exists_of_bind hrule
    cases hrule
    intro s v u h
    obtain ⟨⟨_, h⟩, _⟩ := Backtrack.Reader.reads_value.mp h
    exact sound_repetition (ih hinner) h
  | sequence _ ih =>
    obtain ⟨inner, hinner, hrule⟩ := exists_of_bind hrule
    cases hrule
    intro s v u h
    obtain ⟨⟨_, h⟩, _⟩ := Backtrack.Reader.reads_value.mp h
    exact (sound_rulesOfAll ih hinner).1 h
  | alternative _ ih =>
    obtain ⟨inner, hinner, hrule⟩ := exists_of_bind hrule
    cases hrule
    intro s v u h
    obtain ⟨q, hq, h⟩ := Backtrack.Reader.exists_of_reads_choice h
    obtain ⟨e, he, hsound⟩ := (sound_rulesOfAll ih hinner).2 q hq
    obtain ⟨t, rfl, ht⟩ := hsound h
    exact ⟨t, rfl, .alternative he ht⟩
  | bad => cases hrule

end Expressions

section Productions

theorem sound_production {p : Production} {rule : Rule}
    (hrefs : SoundRefs rd grammar) (hfind : grammar.find? p.name = some p)
    (hrule : p.rule = .ok rule) (hbody : ∀ body ∈ p.body, body.Verified grammar (isLexical p.name)) :
    rd.Sound rule fun _ t => grammar.Derives p.name t := by
  obtain ⟨position, name, body⟩ := p
  intro s v u h
  cases body with
  | none =>
    cases hrule
    rw [Backtrack.Reader.reads_named] at h
    obtain ⟨_, rfl, _⟩ := Backtrack.Reader.reads_always.mp h
    exact ⟨[], rfl, .empty hfind rfl⟩
  | some e =>
    unfold Production.rule at hrule
    dsimp only at hrule
    split at hrule
    · rename_i inner hinner
      cases hrule
      rw [Backtrack.Reader.reads_named] at h
      obtain ⟨t, rfl, ht⟩ := sound_rule hrefs (hbody e rfl) hinner h
      exact ⟨t, rfl, .body hfind rfl ht⟩
    · cases hrule

variable {start : Bytes} (hverified : grammar.Verified start) (input : Input)
include hverified

/-- Whatever the depth of references, a reference reads texts of its production only. -/
theorem sound_refs (depth : Nat) : SoundRefs (grammar.definitions.reader depth input) grammar := by
  induction depth with
  | zero => exact fun _ _ _ _ h => absurd h Definitions.not_reads_ref
  | succ depth ih =>
    intro name s v u h
    obtain ⟨rule, hrule, h⟩ := Definitions.exists_of_reads_ref h
    unfold Grammar.definitions at hrule
    split at hrule
    · cases hrule
    · rename_i p hfind
      obtain ⟨hmem, rfl⟩ := Grammar.find?_name hfind
      cases hp : p.rule with
      | error problem =>
        rw [hp] at hrule
        cases hrule
      | ok inner =>
        rw [hp] at hrule
        cases hrule
        exact sound_production ih hfind hp (hverified.bodies p hmem) h

theorem sound_startRule (depth : Nat) :
    (grammar.definitions.reader depth input).Sound (startRule start)
      fun _ t => grammar.DerivesWhole start t := by
  have href := sound_refs hverified input depth start
  intro s v u h
  unfold startRule at h
  split at h
  · obtain ⟨t, rfl, ht⟩ := href h
    exact ⟨t, rfl, t, [], (List.append_nil t).symm, ht, gap_nil _⟩
  · rename_i hstart
    obtain ⟨_, m, hm, hspaces⟩ := Backtrack.Reader.reads_skipRight.mp h
    obtain ⟨⟨_, hspaces⟩, _⟩ := Backtrack.Reader.reads_value.mp hspaces
    obtain ⟨t, rfl, ht⟩ := href hm
    obtain ⟨gap, hgap, hrest⟩ := exists_blanks m
    refine ⟨t ++ gap, ?_, t, gap, rfl, ht, hgap, fun h => absurd h hstart⟩
    rw [Backtrack.Reader.reads_spaces hspaces, List.append_assoc, ← hrest]

end Productions

/-- A match of a compiled parser has its text as its value, which is a text of the start production
in the grammar's own language, up to blanks at the end where these are allowed. That is so whatever
verification is made use of, as long as it can be relied on. -/
theorem Reliable.compileBy_sound {verify : Grammar → Bytes → Except Bytes Unit}
    (hverify : Reliable verify) {start : Bytes} {parser : Parser Bytes}
    (hcompile : grammar.compileBy verify start = .ok parser) {input : Input} {offset : Int}
    (hstart : 0 ≤ offset) (hend : offset ≤ input.size) {value : Bytes} {next : Int}
    (h : (parser input offset).outcome = .success value next) :
    offset ≤ next ∧ next ≤ input.size ∧ value = input.slice offset.toNat next.toNat ∧
      grammar.DerivesWhole start value := by
  obtain ⟨hok, rfl⟩ := Grammar.compileBy_eq_ok hcompile
  obtain ⟨v, next', hinner, h⟩ := Run.onSuccess_eq_success.mp h
  rw [Input.place?_eq _ hstart hend] at h
  obtain ⟨hvalue, rfl⟩ := Outcome.success.inj h
  have hsize : input.text.size = input.size := rfl
  -- The parser is a term read with the references of a fixed depth, from a suffix of the text on.
  let rd := grammar.definitions.reader (Definitions.depth grammar.length input) input
  obtain ⟨s, hs, hplace⟩ : ∃ s, s <:+ input.text.toList ∧ placeOf input.text s = offset.toNat := by
    apply exists_suffix List.suffix_rfl
    · rw [placeOf_toList]
      exact Nat.zero_le _
    · omega
  have hoffset : rd.offsetOf s = offset := by
    unfold Backtrack.Reader.offsetOf
    rw [show rd.input.text = input.text from rfl, hplace]
    omega
  have hrun : rd.run (startRule start) s = .success v next' := by
    unfold Definitions.parser at hinner
    rw [Definitions.parserAt_eq] at hinner
    unfold Backtrack.Reader.run
    rw [hoffset]
    exact hinner
  obtain ⟨u, hread, rfl⟩ := Backtrack.Reader.reads_of_success hs hrun
  obtain ⟨t, rfl, ht⟩ := sound_startRule (hverify grammar start hok) input _ hread
  have happend := Backtrack.Reader.offsetOf_append hread.start
  have hslice : input.slice offset.toNat (rd.offsetOf u).toNat = t := by
    have hnat : (rd.offsetOf u).toNat = offset.toNat + t.length := by omega
    rw [hnat, ← hplace, Input.slice, extract_placeOf hs, List.take_left]
  rw [hslice] at hvalue
  refine ⟨by omega, Backtrack.Reader.offsetOf_le, ?_, ?_⟩
  · rw [hslice, hvalue]
  · rw [← hvalue]
    exact ht

/-- Whatever a parser of a grammar matches is a text of the grammar's own language. -/
theorem compile_sound {start : Bytes} {parser : Parser Bytes}
    (hcompile : grammar.compile start = .ok parser) {input : Input} {offset : Int}
    (hstart : 0 ≤ offset) (hend : offset ≤ input.size) {value : Bytes} {next : Int}
    (h : (parser input offset).outcome = .success value next) :
    offset ≤ next ∧ next ≤ input.size ∧ value = input.slice offset.toNat next.toNat ∧
      grammar.DerivesWhole start value :=
  reliable_verify.compileBy_sound hcompile hstart hend h

/-- Brackets in brackets: `Nest = "(" [ Nest ] ")" .` -/
def nest : Grammar := [⟨{}, "Nest", some (.sequence
  [.token ⟨{}, "("⟩, .option {} (.name {} "Nest"), .token ⟨{}, ")"⟩])⟩]

def nestRule (lexical : Bool) : Rule :=
  .named "Nest" ((Term.sequenceOf [terminal lexical (.literal "("),
    .optional () (if lexical then terminal lexical (.ref ("Nest" : Bytes) : Rule)
      else .ref ("Nest" : Bytes)),
    terminal lexical (.literal ")")]).value ())

theorem nest_definitions (name : Bytes) : nest.definitions name =
    if ("Nest" : Bytes) = name then some (nestRule (isLexical "Nest")) else none := by
  unfold Grammar.definitions Grammar.find? nest
  by_cases hname : ("Nest" : Bytes) = name
  · simp only [List.find?_cons, hname, decide_true, if_true]
    subst hname
    rfl
  · simp only [List.find?_cons, hname, decide_false, if_false]
    rfl

theorem compile_sound_nest :
    (nest.parser "Nest" (Input.ofBytes [] "x(())") 1).outcome = .success "(())" 5 ∧
      nest.DerivesWhole "Nest" "(())" := by
  have hreference : referenceProblems nest (isLexical "Nest") {} "Nest" = [] := by
    unfold referenceProblems
    cases isLexical "Nest" <;> rfl
  have hproblems : nest.problems "Nest" = [] := by
    have hnest : nest.problems "Nest" =
        referenceProblems nest (isLexical "Nest") {} "Nest" ++ [] ++ [] ++ [] := rfl
    rw [hnest, hreference]
    rfl
  have hcompile : nest.compile "Nest" = .ok (nest.parser "Nest") := by
    unfold Grammar.compile Grammar.compileBy Grammar.verify
    rw [hproblems]
    rfl
  have h : (nest.parser "Nest" (Input.ofBytes [] "x(())") 1).outcome = .success "(())" 5 := by
    unfold Grammar.parser startRule
    rw [funext nest_definitions]
    generalize isLexical "Nest" = lexical
    cases lexical
    · rfl
    · rfl
  exact ⟨h, (compile_sound hcompile (by decide) (by decide) h).2.2.2⟩

end Backtrack.Ebnf
