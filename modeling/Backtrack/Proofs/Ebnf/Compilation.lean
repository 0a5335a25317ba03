import Backtrack.Proofs.Ebnf.Verification
import Backtrack.Proofs.Parser.Gentleness
import Backtrack.Proofs.Parser.Nesting

/-!
# Verified grammars compile to parsers that cannot break

A verified grammar without missing parts has a term for each of its productions, and every name in a
term, however deep in an expression it stands, is that of a production. The terms commit to nothing.
So the parser of such a grammar never follows a reference to nowhere and never aborts: wherever one
of its runs ends, it ends with a match or with a miss.

This module does NOT show that a run ends, which is false for a grammar with left recursion.
-/

namespace Backtrack.Ebnf

variable {grammar : Grammar} {lexical : Bool}

/-- The definitions have one for every name that the grammar has a production for. -/
def Grammar.DefinedBy (grammar : Grammar) (defs : Definitions valueType) : Prop :=
  ∀ name, (grammar.find? name).isSome → defs name ≠ none

/-- A term that makes no errors and refers to nothing but productions of the grammar. -/
structure Sturdy {α : Type} (grammar : Grammar) (p : Term valueType α) : Prop where
  gentle : p.Gentle
  keeps : ∀ {defs}, grammar.DefinedBy defs → p.Keeps .strict defs

theorem sturdy_terminal {α : Type} {p : Term valueType α} (h : Sturdy grammar p) :
    Sturdy grammar (terminal lexical p) := by
  cases lexical with
  | true => exact ⟨h.gentle, fun hdefs => h.keeps hdefs⟩
  | false => exact ⟨⟨trivial, h.gentle⟩, fun hdefs => ⟨Term.keeps_spaces, h.keeps hdefs⟩⟩

theorem sturdy_ref {name : Bytes} (h : (grammar.find? name).isSome) :
    Sturdy grammar (.ref name : Rule) :=
  ⟨trivial, fun hdefs hnone => absurd hnone (hdefs name h)⟩

theorem sturdy_reference {name : Bytes} (h : (grammar.find? name).isSome) :
    Sturdy grammar (reference lexical name) := by
  unfold reference
  split
  · exact sturdy_terminal (sturdy_ref h)
  · exact sturdy_ref h

theorem exists_rulesOfAll {es : List Expression}
    (hes : ∀ e ∈ es, ∃ rule, e.rule lexical = .ok rule ∧ Sturdy grammar rule) :
    ∃ rules, rulesOfAll lexical es = .ok rules ∧ ∀ rule ∈ rules, Sturdy grammar rule := by
  induction es with
  | nil => exact ⟨[], rfl, nofun⟩
  | cons e es ih =>
    obtain ⟨⟨rule, hrule, hsturdy⟩, hes⟩ := List.forall_mem_cons.mp hes
    obtain ⟨rules, hrules, hall⟩ := ih hes
    refine ⟨rule :: rules, ?_, List.forall_mem_cons.mpr ⟨hsturdy, hall⟩⟩
    unfold rulesOfAll
    rw [hrule, hrules]
    rfl

/-- A verified expression that was read whole has a term. -/
theorem exists_rule {e : Expression} (hwhole : e.Whole) (he : e.Verified grammar lexical) :
    ∃ rule, e.rule lexical = .ok rule ∧ Sturdy grammar rule := by
  induction hwhole with
  | name position target =>
    cases he with
    | name _ hdefined => exact ⟨_, rfl, sturdy_reference hdefined⟩
  | token t => exact ⟨_, rfl, sturdy_terminal ⟨trivial, fun _ => trivial⟩⟩
  | range first last => exact ⟨_, rfl, sturdy_terminal ⟨trivial, fun _ => trivial⟩⟩
  | group position _ ih =>
    cases he with
    | group _ hbody => exact ih hbody
  | option position _ ih =>
    cases he with
    | option _ hbody =>
      obtain ⟨inner, hinner, hsturdy⟩ := ih hbody
      refine ⟨.optional () inner, ?_, hsturdy.gentle, hsturdy.keeps⟩
      unfold Expression.rule
      rw [hinner]
      rfl
  | repetition position _ ih =>
    cases he with
    | repetition _ hbody =>
      obtain ⟨inner, hinner, hsturdy⟩ := ih hbody
      refine ⟨inner.many0.value (), ?_, hsturdy.gentle, fun hdefs => ?_⟩
      · unfold Expression.rule
        rw [hinner]
        rfl
      · exact Term.keeps_value.mpr (Term.keeps_many0.mpr (hsturdy.keeps hdefs))
  | sequence _ ih =>
    cases he with
    | sequence hparts =>
      obtain ⟨rules, hrules, hsturdy⟩ := exists_rulesOfAll fun e he => ih e he (hparts e he)
      refine ⟨(Term.sequenceOf rules).value (), ?_, ?_, fun hdefs => ?_⟩
      · unfold Expression.rule
        rw [hrules]
        rfl
      · exact Term.gentle_sequenceOf fun rule hrule => (hsturdy rule hrule).gentle
      · exact fun i => (hsturdy _ (List.get_mem rules i)).keeps hdefs
  | alternative _ ih =>
    cases he with
    | alternative hparts =>
      obtain ⟨rules, hrules, hsturdy⟩ := exists_rulesOfAll fun e he => ih e he (hparts e he)
      refine ⟨Term.choice rules, ?_, ?_, fun hdefs => ?_⟩
      · unfold Expression.rule
        rw [hrules]
        rfl
      · exact Term.gentle_choice fun rule hrule => (hsturdy rule hrule).gentle
      · exact Term.keeps_choice.mpr fun rule hrule => (hsturdy rule hrule).keeps hdefs

theorem exists_productionRule {p : Production} (hwhole : ∀ body ∈ p.body, body.Whole)
    (hbody : ∀ body ∈ p.body, body.Verified grammar (isLexical p.name)) :
    ∃ rule, p.rule = .ok rule ∧ Sturdy grammar rule := by
  obtain ⟨position, name, body⟩ := p
  cases body with
  | none => exact ⟨_, rfl, trivial, fun _ => trivial⟩
  | some e =>
    obtain ⟨inner, hinner, hsturdy⟩ := exists_rule (hwhole e rfl) (hbody e rfl)
    refine ⟨.named name inner, ?_, hsturdy.gentle, hsturdy.keeps⟩
    unfold Production.rule
    dsimp only
    rw [hinner]

theorem ruleProblem?_eq_none {ps : List Production} (h : ∀ p ∈ ps, ∃ rule, p.rule = .ok rule) :
    ruleProblem? ps = none := by
  induction ps with
  | nil => rfl
  | cons p ps ih =>
    obtain ⟨⟨rule, hrule⟩, hps⟩ := List.forall_mem_cons.mp h
    unfold ruleProblem?
    rw [hrule]
    exact ih hps

theorem sturdy_startRule {start : Bytes} (h : (grammar.find? start).isSome) :
    Sturdy grammar (startRule start) := by
  unfold startRule
  split
  · exact sturdy_ref h
  · have href := sturdy_ref h
    exact ⟨⟨trivial, trivial⟩, fun hdefs => ⟨href.keeps hdefs, Term.keeps_spaces⟩⟩

namespace Grammar

/-- Definitions are for names of productions only, so the bound on references is enough. -/
theorem parser_outOfFuel_iff (start : Bytes) {input : Input} {offset : Int} (h : 0 ≤ offset)
    (hsize : offset ≤ input.size) :
    (grammar.parser start input offset).outcome = .halted .outOfFuel ↔
      ∀ r, ¬ grammar.definitions.Yields (startRule start) input offset r := by
  have hnames : ∀ name rule, grammar.definitions name = some rule →
      name ∈ (grammar.map Production.name).toFinset := by
    intro name rule hrule
    unfold definitions at hrule
    split at hrule
    · cases hrule
    · rename_i p hfind
      obtain ⟨hp, rfl⟩ := find?_name hfind
      exact List.mem_toFinset.mpr (List.mem_map_of_mem hp)
  have hcard : (grammar.map Production.name).toFinset.card ≤ grammar.length :=
    (List.toFinset_card_le _).trans_eq (List.length_map _)
  exact Parser.matchedText_outOfFuel_iff.trans
    (Definitions.parser_outOfFuel_iff hnames hcard _ h hsize)

variable {start : Bytes} (hverified : grammar.Verified start)
  (hwhole : ∀ p ∈ grammar, ∀ body ∈ p.body, body.Whole)
include hverified hwhole

theorem exists_sturdy_rule : ∀ p ∈ grammar, ∃ rule, p.rule = .ok rule ∧ Sturdy grammar rule :=
  fun p hp => exists_productionRule (hwhole p hp) (hverified.bodies p hp)

/-- Every name with a production has a definition. -/
theorem definedBy_definitions : grammar.DefinedBy grammar.definitions := by
  intro name hsome hnone
  obtain ⟨p, hfind⟩ := Option.isSome_iff_exists.mp hsome
  obtain ⟨rule, hrule, _⟩ := exists_sturdy_rule hverified hwhole p (find?_name hfind).1
  unfold definitions at hnone
  rw [hfind] at hnone
  dsimp only at hnone
  rw [hrule] at hnone
  cases hnone

theorem sturdy_definitions {name : Bytes} {rule : Rule} (h : grammar.definitions name = some rule) :
    Sturdy grammar rule := by
  unfold definitions at h
  split at h
  · cases h
  · rename_i p hfind
    obtain ⟨rule', hrule, hsturdy⟩ := exists_sturdy_rule hverified hwhole p (find?_name hfind).1
    rw [hrule] at h
    cases h
    exact hsturdy

/-- However deep references are followed, the run of a compiled parser matches or misses. -/
theorem plain_parserAt (depth : Nat) {input : Input} {offset : Int} (hstart : 0 ≤ offset)
    (hend : offset ≤ input.size) :
    ((grammar.definitions.parserAt depth (startRule start)).matchedText input offset).Plain input
      offset := by
  have hdefined := definedBy_definitions hverified hwhole
  have hrule := sturdy_startRule hverified.start
  have hgentle := Definitions.parserAt_gentle
    (fun _ _ hbody => (sturdy_definitions hverified hwhole hbody).gentle) hrule.gentle depth
  have hwithin := Definitions.parserAt_within (c := .strict) rfl
    (fun _ _ hbody => (sturdy_definitions hverified hwhole hbody).keeps hdefined)
    (hrule.keeps hdefined) depth
  apply Run.plain_of_gentle (hgentle.matchedText input offset)
  refine (hwithin input offset hstart hend).onSuccess fun value next hnext hsize => ?_
  rw [Input.place?_eq _ hstart hend]
  exact .of_success hnext hsize

end Grammar

/-- A parser that cannot break. Wherever one of its runs from inside a text ends, with references
followed to any depth, it ends with a match or a miss, and the bound on references is used up only
where no run ends. So an evaluation comes to a value or to a complaint about input that was not
expected, unless there is no end to it. -/
structure Grammar.Robust (grammar : Grammar) (start : Bytes) : Prop where
  plain_parserAt : ∀ depth (input : Input) (offset : Int), 0 ≤ offset → offset ≤ input.size →
    ((grammar.definitions.parserAt depth (startRule start)).matchedText input offset).Plain input
      offset
  plain : ∀ (input : Input) (offset : Int), 0 ≤ offset → offset ≤ input.size →
    (grammar.parser start input offset).Plain input offset
  endless : ∀ (input : Input) (offset : Int), 0 ≤ offset → offset ≤ input.size →
    ((grammar.parser start input offset).outcome = .halted .outOfFuel ↔
      ∀ r, ¬ grammar.definitions.Yields (startRule start) input offset r)
  evaluate : ∀ text requests settings, Settings.ofList requests = .ok settings →
    (∃ value, ((grammar.parser start).evaluate text requests).result = .ok (.ok value)) ∨
    (∃ position near trailing, ((grammar.parser start).evaluate text requests).result =
      .ok (.error (.unexpected position near trailing))) ∨
    ((grammar.parser start).evaluate text requests).result = .error .outOfFuel ∧
      ∀ r, ¬ grammar.definitions.Yields (startRule start)
        (Input.ofBytes settings.filename text) 0 r

/-- A grammar without missing parts compiles if it is verified, to a parser that cannot break. That
is so whatever verification is made use of, as long as it can be relied on. -/
theorem Reliable.compileBy_of_verify {verify : Grammar → Bytes → Except Bytes Unit}
    (hverify : Reliable verify) (hwhole : ∀ p ∈ grammar, ∀ body ∈ p.body, body.Whole)
    {start : Bytes} (h : verify grammar start = .ok ()) :
    grammar.compileBy verify start = .ok (grammar.parser start) ∧ grammar.Robust start := by
  have hverified := hverify grammar start h
  have hplain : ∀ depth (input : Input) (offset : Int), 0 ≤ offset → offset ≤ input.size →
      ((grammar.definitions.parserAt depth (startRule start)).matchedText input offset).Plain input
        offset :=
    fun depth _ _ => Grammar.plain_parserAt hverified hwhole depth
  refine ⟨?_, hplain, fun _ _ => hplain _ _ _, fun _ _ => Grammar.parser_outOfFuel_iff start, ?_⟩
  · unfold Grammar.compileBy
    rw [h]
    dsimp only
    rw [ruleProblem?_eq_none]
    intro p hp
    obtain ⟨rule, hrule, _⟩ := Grammar.exists_sturdy_rule hverified hwhole p hp
    exact ⟨rule, hrule⟩
  · intro text requests settings hsettings
    have hend : (0 : Int) ≤ (Input.ofBytes settings.filename text).size := Int.natCast_nonneg _
    have hevaluate := Parser.evaluate_of_plain (p := grammar.parser start) hsettings
      (hplain _ _ 0 (Int.le_refl 0) hend)
    refine hevaluate.imp_right (Or.imp_right fun hfuel => ⟨hfuel, ?_⟩)
    obtain ⟨settings', hsettings', houtcome⟩ := Parser.evaluate_outOfFuel_iff.mp hfuel
    rw [hsettings] at hsettings'
    cases hsettings'
    exact (Grammar.parser_outOfFuel_iff start (Int.le_refl 0) hend).mp houtcome

/-- A grammar that is verified compiles to a parser that cannot break. -/
theorem compile_of_verify {start : Bytes} (h : grammar.verify start = .ok ()) :
    grammar.compile start = .ok (grammar.parser start) ∧ grammar.Robust start :=
  reliable_verify.compileBy_of_verify (Grammar.whole_of_verify h) h

/-- Digits and lists in brackets: `Item = "0" … "9" | "(" [ Item { "," Item } ] ")" .` -/
def item : Production := ⟨{}, "Item", some (.alternative
  [.range ⟨{}, "0"⟩ ⟨{}, "9"⟩,
   .sequence [.token ⟨{}, "("⟩,
    .option {} (.sequence [.name {} "Item",
      .repetition {} (.sequence [.token ⟨{}, ","⟩, .name {} "Item"])]),
    .token ⟨{}, ")"⟩]])⟩

theorem problems_item : item.problems [item] = [] := by
  have hreference : referenceProblems [item] (isLexical "Item") {} "Item" = [] := by
    unfold referenceProblems
    cases isLexical "Item" <;> rfl
  have hrange : rangeProblems ⟨{}, "0"⟩ ⟨{}, "9"⟩ = [] := rfl
  unfold Production.problems item
  simp only [Expression.problems, Expression.problems.problemsOfAll]
  rw [← item, hreference, hrange]
  rfl

theorem compile_of_verify_item :
    Grammar.verify [item] "Item" = .ok () ∧
      Grammar.compile [item] "Item" = .ok (Grammar.parser [item] "Item") ∧
      (Grammar.parser [item] "Item" (Input.ofBytes [] "x(1,(2),") 1).Plain
        (Input.ofBytes [] "x(1,(2),") 1 := by
  have hverify : Grammar.verify [item] "Item" = .ok () := by
    unfold Grammar.verify Grammar.problems
    rw [if_neg (by decide), show Grammar.reach [item] "Item" = ([item], []) from rfl]
    dsimp only
    rw [List.flatMap_cons, problems_item]
    rfl
  obtain ⟨hcompile, hrobust⟩ := compile_of_verify hverify
  exact ⟨hverify, hcompile, hrobust.plain _ _ (by decide) (by decide)⟩

end Backtrack.Ebnf
