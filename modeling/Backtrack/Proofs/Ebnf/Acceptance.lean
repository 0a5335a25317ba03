import Backtrack.Proofs.Ebnf.Completeness
import Backtrack.Proofs.Ebnf.Flawless

/-!
# Trees and grammars of the same texts

What a text is read as in one shape, it is read as in the other, as far as a tree can be read and
names no production twice. Of the texts that a grammar is read from without flaws, a tree is read
from those that consist of proper lexemes and blanks. The reader of tokens takes more: comments, a
byte order mark, names with letters outside ASCII, and literals that stand for no text. A comment
leaves no token, so the tokens of a text with one do not have all of its bytes.

Of the front end that reads grammars no more is made use of than what it reads from the lexemes of a
text.
-/

namespace Backtrack.Ebnf

open Text

variable {s u : Bytes} {ls : List Lexeme}

/-- A front end that reads what it is told to over the tokens of a text. From the lexemes of a tree
without repeated names it reads the grammar that the tree stands for, and from other proper lexemes
it reads nothing. -/
structure Published (parse : (filename text : Bytes) → Except Bytes Grammar) : Prop where
  reads : ∀ {filename text : Bytes} {ls : List Lexeme} {d : Tree.Document},
    Lexed filename text ls → d.Spelled ls → (d.map Tree.Production.name).Nodup →
      ∃ grammar, parse filename text = .ok grammar ∧
        grammar.map (fun p => some p.unplaced) = d.map Tree.Production.translate?
  spells : ∀ {filename text : Bytes} {ls : List Lexeme} {grammar : Grammar},
    Lexed filename text ls → (∀ l ∈ ls, l.Proper) → parse filename text = .ok grammar →
      ∃ d : Tree.Document, d.Spelled ls ∧
        grammar.map (fun p => some p.unplaced) = d.map Tree.Production.translate?

theorem published_parse : Published Grammar.parse := ⟨parse_of_spelled, exists_spelled_of_parse⟩

theorem Laid.proper (h : Laid ls s u) : ∀ l ∈ ls, l.Proper := by
  induction h with
  | nil => nofun
  | cons hl _ _ _ ih => exact List.forall_mem_cons.mpr ⟨hl, ih⟩

section FrontEnds

variable {parse : (filename text : Bytes) → Except Bytes Grammar} (hparse : Published parse)
include hparse

/-- A text that is read as a tree without repeated names is read as the grammar that the tree stands
for, by any front end that reads what it is told to. -/
theorem Published.parse_of_tree {treeName filename text : Bytes} {d : Tree.Document}
    (h : (Tree.parse treeName text).result = .ok (.ok d))
    (hnames : (d.map Tree.Production.name).Nodup) :
    ∃ grammar, parse filename text = .ok grammar ∧
      grammar.map (fun p => some p.unplaced) = d.map Tree.Production.translate? := by
  obtain ⟨ls, hspelled, hlaid⟩ := Tree.spelled_of_parse h
  exact hparse.reads (tokensOf_lexemes filename hlaid) hspelled hnames

/-- A tree that is read from the text of a grammar without flaws stands for the grammar, and one is
read exactly if the text is made of proper lexemes. That is so for any front end that reads what it
is told to. -/
theorem Published.tree_of_ok (treeName : Bytes) {filename text : Bytes} {grammar : Grammar}
    (h : parse filename text = .ok grammar) :
    (∀ d, (Tree.parse treeName text).result = .ok (.ok d) →
      grammar.map (fun p => some p.unplaced) = d.map Tree.Production.translate?) ∧
    ((∃ d, (Tree.parse treeName text).result = .ok (.ok d)) ↔ ∃ ls, Laid ls (skip text) []) := by
  have hread : ∀ {ls : List Lexeme}, Laid ls (skip text) [] → ∃ d,
      (Tree.parse treeName text).result = .ok (.ok d) ∧
        grammar.map (fun p => some p.unplaced) = d.map Tree.Production.translate? := by
    intro ls hlaid
    obtain ⟨d, hspelled, htranslated⟩ :=
      hparse.spells (tokensOf_lexemes filename hlaid) hlaid.proper h
    exact ⟨d, Tree.parse_of_spelled hspelled hlaid, htranslated⟩
  refine ⟨fun d hd => ?_, fun ⟨d, hd⟩ => ?_, fun ⟨ls, hlaid⟩ => ?_⟩
  · obtain ⟨ls, _, hlaid⟩ := Tree.spelled_of_parse hd
    obtain ⟨d', hd', htranslated⟩ := hread hlaid
    rw [hd] at hd'
    cases hd'
    exact htranslated
  · obtain ⟨ls, _, hlaid⟩ := Tree.spelled_of_parse hd
    exact ⟨ls, hlaid⟩
  · obtain ⟨d, hd, _⟩ := hread hlaid
    exact ⟨d, hd⟩

end FrontEnds

/-- A text that is read as a tree without repeated names is read as the grammar that the tree stands
for. -/
theorem parse_of_parse_tree {treeName filename text : Bytes} {d : Tree.Document}
    (h : (Tree.parse treeName text).result = .ok (.ok d))
    (hnames : (d.map Tree.Production.name).Nodup) :
    ∃ grammar, Grammar.parse filename text = .ok grammar ∧
      grammar.map (fun p => some p.unplaced) = d.map Tree.Production.translate? :=
  published_parse.parse_of_tree h hnames

namespace Tree

def reference : Document := [⟨"a", [[[.name "b"]]]⟩]

theorem parse_reference : (parse [] "a=b.").result = .ok (.ok reference) := by
  have hname : ∀ {b : UInt8}, isNameStart b = true → Name [b] := fun hb => .mk hb rfl
  have hspelled : reference.Spelled [.name "a", .mark '=', .name "b", .mark '.'] :=
    .cons (.body (hname (by decide)) (.last (.last (.name (hname (by decide)))))) .nil
  have hpoint : Laid [.mark '.'] [46] [] := laid_mark (m := []) (by decide) rfl
  have htarget : Laid [.name "b", .mark '.'] [98, 46] [] :=
    .cons (m := [46]) (.name (hname (by decide))) rfl (fun _ => headNot_cons.mpr (by decide)) hpoint
  have hequals : Laid [.mark '=', .name "b", .mark '.'] [61, 98, 46] [] :=
    .cons (m := [98, 46]) (.mark (by decide)) rfl nofun htarget
  have hlaid : Laid [.name "a", .mark '=', .name "b", .mark '.'] (skip "a=b.") [] :=
    .cons (m := [61, 98, 46]) (.name (hname (by decide))) rfl
      (fun _ => headNot_cons.mpr (by decide)) hequals
  exact parse_of_spelled hspelled hlaid

end Tree

/-- A production is read as a tree and as a grammar. -/
theorem parse_of_parse_tree_reference :
    (Tree.parse [] "a=b.").result = .ok (.ok Tree.reference) ∧
      (Tree.reference.map Tree.Production.name).Nodup ∧
      ∃ grammar, Grammar.parse [] "a=b." = .ok grammar ∧
        grammar.map (fun p => some p.unplaced) = [some ⟨{}, "a", some (.name {} "b")⟩] := by
  have hnames : (Tree.reference.map Tree.Production.name).Nodup := by decide
  exact ⟨Tree.parse_reference, hnames, parse_of_parse_tree Tree.parse_reference hnames⟩

/-- A tree that is read from the text of a grammar without flaws stands for the grammar, and one is
read exactly if the text is made of proper lexemes. -/
theorem tree_of_parse (treeName : Bytes) {filename text : Bytes} {grammar : Grammar}
    (h : Grammar.parse filename text = .ok grammar) :
    (∀ d, (Tree.parse treeName text).result = .ok (.ok d) →
      grammar.map (fun p => some p.unplaced) = d.map Tree.Production.translate?) ∧
    ((∃ d, (Tree.parse treeName text).result = .ok (.ok d)) ↔ ∃ ls, Laid ls (skip text) []) :=
  published_parse.tree_of_ok treeName h

theorem exists_of_toBool {filename text : Bytes}
    (h : (Grammar.parse filename text).toBool = true) :
    ∃ grammar, Grammar.parse filename text = .ok grammar := by
  cases hparse : Grammar.parse filename text with
  | ok grammar => exact ⟨grammar, rfl⟩
  | error message =>
    rw [hparse] at h
    cases h

/-- A production is read as a grammar, and the tree of it stands for the same. -/
theorem tree_of_parse_reference : ∃ grammar, Grammar.parse [] "a=b." = .ok grammar ∧
    grammar.map (fun p => some p.unplaced) = Tree.reference.map Tree.Production.translate? ∧
    ∃ ls, Laid ls (skip "a=b.") [] := by
  have hok : (Grammar.parse [] "a=b.").toBool = true := by decide +kernel
  obtain ⟨grammar, h⟩ := exists_of_toBool hok
  have htree := tree_of_parse [] h
  exact ⟨grammar, h, htree.1 _ Tree.parse_reference, htree.2.mp ⟨_, Tree.parse_reference⟩⟩

def isVisible (b : UInt8) : Bool := !isSpaceByte b

theorem filter_skip (t : Bytes) : (skip t).filter isVisible = t.filter isVisible := by
  obtain ⟨before, hbefore, ht⟩ := exists_blanks t
  have hnone : before.filter isVisible = [] := by
    apply List.filter_eq_nil_iff.mpr
    intro b hb
    simp [isVisible, List.all_eq_true.mp hbefore b hb]
  conv => rhs; rw [ht, List.filter_append, hnone, List.nil_append]

/-- Between lexemes there are only blanks. -/
theorem Laid.filter_eq (h : Laid ls s u) :
    s.filter isVisible = (ls.flatMap Lexeme.text ++ u).filter isVisible := by
  induction h with
  | nil => rfl
  | @cons l ls s m u _ hs _ _ ih =>
    rw [← filter_skip s, hs, List.filter_append, ← filter_skip m, ih, ← List.filter_append,
      List.flatMap_cons, List.append_assoc]

/-- The tokens of a text that is made of proper lexemes have all of its bytes but blanks. -/
theorem visible_tokens (filename : Bytes) {text : Bytes} (h : Laid ls (skip text) []) :
    text.filter isVisible = ((tokensOf filename text).1.flatMap Token.text).filter isVisible := by
  have hall : (tokensOf filename text).1.flatMap Token.text = ls.flatMap Lexeme.text := calc
    _ = ((tokensOf filename text).1.map Token.lexeme).flatMap Lexeme.text :=
      (List.flatMap_map _ _ _).symm
    _ = ls.flatMap Lexeme.text := by rw [tokensOf_lexemes filename h]; simp
  rw [hall, ← filter_skip, h.filter_eq, List.append_nil]

/-- A production with a comment behind it is a grammar without flaws, but no tree is read from it.
-/
theorem not_tree_of_comment : (∃ grammar, Grammar.parse [] "a = b . // c" = .ok grammar) ∧
    ∀ d, (Tree.parse [] "a = b . // c").result ≠ .ok (.ok d) := by
  refine ⟨exists_of_toBool (by decide +kernel), fun d hd => ?_⟩
  obtain ⟨ls, _, hlaid⟩ := Tree.spelled_of_parse hd
  exact absurd (visible_tokens [] hlaid) (by decide +kernel)

end Backtrack.Ebnf
