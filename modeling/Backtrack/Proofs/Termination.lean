import Backtrack.Calc
import Backtrack.Ebnf.Tree.Grammar
import Backtrack.Json.Grammar
import Backtrack.Proofs.Parser.Termination
import Backtrack.Xml.Grammar

/-!
# The grammars that come with the library end on every text

None of them is left recursive, and none of the functions that they bring along breaks down, so
evaluating comes to a value or an error on every text.

This module does NOT say which texts have a value.
-/

namespace Backtrack

open Term

theorem Json.not_leftRecursive : ¬ Json.definitions.LeftRecursive := by
  apply Definitions.not_leftRecursive_of_level fun _ => 0
  intro i j ⟨body, hbody, hleads⟩
  cases hbody
  simp [Json.value, Json.array, Json.object, Json.bracketed, Json.token, Json.string,
    literals] at hleads

theorem Json.readNumber_placeless {text : Bytes} {error : Error}
    (h : Json.readNumber text = .error error) : error.Placeless := by
  unfold Json.readNumber at h
  split at h
  · split at h
    · cases h
    · cases h
      nofun
  · split at h
    · cases h
    · cases h
      nofun

theorem Json.readString_placeless {text : Bytes} {error : Error}
    (h : Json.readString text = .error error) : error.Placeless := by
  unfold Json.readString at h
  split at h
  · cases h
  · cases h
    nofun

theorem Json.keeps_value {c : Contract} : Json.value.Keeps c Json.definitions := by
  have hnumber : c.placed → ∀ a error, Json.readNumber a = .error error → error.Placeless :=
    fun _ _ _ => Json.readNumber_placeless
  have hstring : c.placed → ∀ a error, Json.readString a = .error error → error.Placeless :=
    fun _ _ _ => Json.readString_placeless
  simpa [Json.value, Json.array, Json.object, Json.bracketed, Json.token, Json.string, literals,
    Json.commaList, Json.member, Json.definitions, Term.char] using ⟨hnumber, hstring⟩

theorem Json.parse_isOk (text : Bytes) (requests : List Setting) :
    ∃ result, (Json.parse text requests).result = .ok result := by
  have hnames : ∀ i body, Json.definitions i = some body → i ∈ ({.value} : Finset Json.Rule) :=
    fun i _ _ => Finset.mem_singleton.mpr (by cases i; rfl)
  apply Definitions.evaluate_isOk hnames Json.not_leftRecursive (Nat.le_refl 1) Json.keeps_value
  intro i body hbody
  cases hbody
  exact Json.keeps_value

theorem Xml.not_leftRecursive : ¬ Xml.definitions.LeftRecursive := by
  apply Definitions.not_leftRecursive_of_level fun _ => 0
  intro i j ⟨body, hbody, hleads⟩
  cases hbody
  simp [Xml.element, Xml.openTag] at hleads

theorem Xml.checkAttributes_placeless {attributes : List (Bytes × Bytes)} {error : Error}
    (h : Xml.checkAttributes attributes = .error error) : error.Placeless := by
  unfold Xml.checkAttributes at h
  split at h
  · cases h
    nofun
  · cases h

section

variable {c : Contract}

theorem Xml.keeps_comment : Xml.comment.Keeps c Xml.definitions := by
  simp [Xml.comment, surround, anyChar]

theorem Xml.keeps_ignored : Xml.ignored.Keeps c Xml.definitions := by
  simp [Xml.ignored, Term.space, Xml.keeps_comment]

theorem Xml.keeps_openTag : Xml.openTag.Keeps c Xml.definitions := by
  have hcheck : c.placed → ∀ a error, Xml.checkAttributes a = .error error → error.Placeless :=
    fun _ _ _ => Xml.checkAttributes_placeless
  simpa [Xml.openTag, Xml.attributeTerm, Xml.tagEnd, Xml.name, Xml.quotedText,
    Term.char] using hcheck

theorem Xml.keeps_closeTag (name : Bytes) : (Xml.closeTag name).Keeps c Xml.definitions := by
  refine ⟨keeps_near fun near => "expected </" ++ name ++ "> but got " ++ near, ?_⟩
  simp [surround, Term.char]

theorem Xml.keeps_text : Xml.text.Keeps c Xml.definitions := by
  simp [Xml.text, Xml.comments, surround, charNotIn, Xml.keeps_comment]

theorem Xml.keeps_content (tag : Xml.OpenTag) : (Xml.content tag).Keeps c Xml.definitions := by
  unfold Xml.content
  split
  · trivial
  · simp [Xml.children, Xml.definitions, Xml.keeps_closeTag, Xml.keeps_ignored,
      Xml.keeps_text]

theorem Xml.keeps_element : Xml.element.Keeps c Xml.definitions :=
  ⟨Xml.keeps_openTag, Xml.keeps_content⟩

theorem Xml.keeps_document : Xml.document.Keeps c Xml.definitions := by
  simp [Xml.document, Xml.keeps_ignored, Xml.keeps_element]

end

theorem Xml.parse_isOk (text : Bytes) (requests : List Setting) :
    ∃ result, (Xml.parse text requests).result = .ok result := by
  have hnames : ∀ i body, Xml.definitions i = some body → i ∈ ({.element} : Finset Xml.Rule) :=
    fun i _ _ => Finset.mem_singleton.mpr (by cases i; rfl)
  apply Definitions.evaluate_isOk hnames Xml.not_leftRecursive (Nat.le_refl 1) Xml.keeps_document
  intro i body hbody
  cases hbody
  exact Xml.keeps_element

def Calc.level : Calc.Rule → Nat
  | .expression => 1
  | .factor => 0

theorem Calc.not_leftRecursive : ¬ Calc.definitions.LeftRecursive := by
  apply Definitions.not_leftRecursive_of_level Calc.level
  intro i j ⟨body, hbody, hleads⟩
  cases i with
  | expression =>
    cases hbody
    simp [Calc.expression, Calc.term, Calc.chain, charIn] at hleads
    rw [← hleads]
    exact Nat.one_pos
  | factor =>
    cases hbody
    simp [Calc.factor, Calc.function, Calc.token, surround] at hleads

theorem Calc.readNumber_placeless {text : Bytes} {error : Error}
    (h : Calc.readNumber text = .error error) : error.Placeless := by
  unfold Calc.readNumber at h
  split at h
  · cases h
  · cases h
    nofun

section

variable {c : Contract}

theorem Calc.keeps_expression : Calc.expression.Keeps c Calc.definitions := by
  simp [Calc.expression, Calc.term, Calc.chain, charIn, Calc.definitions]

theorem Calc.keeps_factor : Calc.factor.Keeps c Calc.definitions := by
  have hnumber : c.placed → ∀ a error, Calc.readNumber a = .error error → error.Placeless :=
    fun _ _ _ => Calc.readNumber_placeless
  simpa [Calc.factor, Calc.function, Calc.token, Calc.argument, surround, Term.char,
    Calc.definitions] using hnumber

theorem Calc.keeps_complete : Calc.complete.Keeps c Calc.definitions :=
  ⟨keeps_near fun near => "unexpected " ++ near, Calc.keeps_expression, trivial⟩

end

theorem Calc.evaluate_isOk (text : Bytes) (requests : List Setting) :
    ∃ result, (Calc.evaluate text requests).result = .ok result := by
  have hnames : ∀ i body, Calc.definitions i = some body →
      i ∈ ({.expression, .factor} : Finset Calc.Rule) := fun i _ _ => by cases i <;> simp
  apply Definitions.evaluate_isOk hnames Calc.not_leftRecursive (Nat.le_refl 2) Calc.keeps_complete
  intro i body hbody
  cases i with
  | expression =>
    cases hbody
    exact Calc.keeps_expression
  | factor =>
    cases hbody
    exact Calc.keeps_factor

namespace Ebnf.Tree

section

variable {empty : Rule → Prop} {j : Rule} {c : Contract}

theorem not_leadsTo_nested {opening closing : Bytes} (h : opening ≠ []) :
    ¬ (nested opening closing).LeadsTo empty j := by
  simp [nested, required, token, surround, h]

theorem not_leadsTo_term : ¬ term.LeadsTo empty j := by
  have hround : ¬ (nested "(" ")").LeadsTo empty j := not_leadsTo_nested (by decide)
  have hsquare : ¬ (nested "[" "]").LeadsTo empty j := not_leadsTo_nested (by decide)
  have hcurly : ¬ (nested "\x7b" "\x7d").LeadsTo empty j := not_leadsTo_nested (by decide)
  simp [term, name, literal, text, token, hround, hsquare, hcurly]

theorem not_leftRecursive : ¬ definitions.LeftRecursive := by
  apply Definitions.not_leftRecursive_of_level fun _ => 0
  intro i j ⟨body, hbody, hleads⟩
  cases hbody
  simp [expression, token, not_leadsTo_term, sepBy1] at hleads

theorem unquote_placeless {text : Bytes} {error : Error} (h : unquote text = .error error) :
    error.Placeless := by
  unfold unquote at h
  split at h
  · cases h
  · cases h
    nofun

theorem keeps_text : text.Keeps c definitions := by
  have hunquote : c.placed → ∀ a error, unquote a = .error error → error.Placeless :=
    fun _ _ _ => unquote_placeless
  simpa [text] using hunquote

theorem keeps_nested {opening closing : Bytes} : (nested opening closing).Keeps c definitions := by
  simp [nested, required, token, surround, definitions]

theorem keeps_expression : expression.Keeps c definitions := by
  simp [expression, term, name, literal, token, sepBy1, keeps_text, keeps_nested]

theorem keeps_document : document.Keeps c definitions := by
  simp [document, production, name, required, token, surround, definitions]

end

theorem parse_isOk (filename text : Bytes) :
    ∃ result, (parse filename text).result = .ok result := by
  have hnames : ∀ i body, definitions i = some body → i ∈ ({.expression} : Finset Rule) :=
    fun i _ _ => Finset.mem_singleton.mpr (by cases i; rfl)
  apply Definitions.evaluate_isOk hnames not_leftRecursive (Nat.le_refl 1) keeps_document
  intro i body hbody
  cases hbody
  exact keeps_expression

end Ebnf.Tree

/-- The only breakdown that is tolerated, apart from the bound on references, is a repetition with
more mandatory matches than can be held. -/
def Contract.holding : Contract := ⟨False, fun why => why = .outOfFuel ∨ why = .fault .unholdable⟩

/-- Every grammar without left recursion ends wherever it is started in a text, with a run that
breaks down only if a repetition has too many mandatory matches or one of its functions breaks down.
The grammars of the library are not left recursive and come to a value or an error. -/
theorem terminates_of_not_leftRecursive :
    (∀ {ι : Type} {τ : ι → Type} (defs : Definitions τ) (names : Finset ι),
      (∀ i body, defs i = some body → i ∈ names) → ¬ defs.LeftRecursive →
      ∀ {α : Type} (t : Term τ α) (input : Input) (offset : Int), 0 ≤ offset →
        offset ≤ input.size →
        ∃ r, defs.Yields t input offset r ∧ defs.parser names.card t input offset = r ∧
          (t.Keeps .holding defs → (∀ i body, defs i = some body → body.Keeps .holding defs) →
            ∀ why, r.outcome = .halted why → why = .fault .unholdable)) ∧
    (¬ Json.definitions.LeftRecursive ∧
      ∀ text requests, ∃ result, (Json.parse text requests).result = .ok result) ∧
    (¬ Xml.definitions.LeftRecursive ∧
      ∀ text requests, ∃ result, (Xml.parse text requests).result = .ok result) ∧
    (¬ Calc.definitions.LeftRecursive ∧
      ∀ text requests, ∃ result, (Calc.evaluate text requests).result = .ok result) ∧
    ¬ Ebnf.Tree.definitions.LeftRecursive ∧
      ∀ filename text, ∃ result, (Ebnf.Tree.parse filename text).result = .ok result := by
  refine ⟨?_, ⟨Json.not_leftRecursive, Json.parse_isOk⟩, ⟨Xml.not_leftRecursive, Xml.parse_isOk⟩,
    ⟨Calc.not_leftRecursive, Calc.evaluate_isOk⟩, Ebnf.Tree.not_leftRecursive,
    Ebnf.Tree.parse_isOk⟩
  intro ι τ defs names hnames hacyclic α t input offset h hsize
  obtain ⟨r, hr, hrun, hbroken⟩ :=
    Definitions.exists_yields hnames hacyclic (Nat.le_refl _) t h hsize
  refine ⟨r, hr, hrun, ?_⟩
  intro ht hdefs why hwhy
  obtain ⟨hne, hhalts⟩ := hbroken .holding (.inl rfl) ht hdefs why hwhy
  exact hhalts.resolve_left hne

theorem digitLists_not_leftRecursive : ¬ Definitions.digitLists.LeftRecursive := by
  apply Definitions.not_leftRecursive_of_level fun _ => 0
  intro i j ⟨body, hbody, hleads⟩
  cases hbody
  simp [surround] at hleads

/-- Any number of any number of lists ends, although the inner repetition may match nothing. -/
theorem terminates_digitLists :
    ∃ r, Definitions.digitLists.Yields (Term.ref ()).many0.many0 (Input.ofBytes [] "[1][2]]") 3
      r := by
  obtain ⟨r, hr, _⟩ := terminates_of_not_leftRecursive.1 Definitions.digitLists {()}
    (fun i _ _ => Finset.mem_singleton.mpr rfl) digitLists_not_leftRecursive
    (Term.ref ()).many0.many0 (Input.ofBytes [] "[1][2]]") 3 (by decide) (by decide)
  exact ⟨r, hr⟩

end Backtrack
