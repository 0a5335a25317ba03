import Backtrack.Ebnf.Verify
import Backtrack.Proofs.Text.Characters

/-!
# The language of a grammar

A grammar read as an ordinary context-free one: of alternatives any may be taken, an option may be
left out, and a repetition goes on for as long as one likes. The productions that are not lexical
add blanks in front of their terminals, where a reference to a lexical production is a terminal too.
-/

namespace Backtrack.Ebnf

open Text

/-- What may stand in front of a terminal: blanks, or nothing in a lexical production. -/
structure Gap (lexical : Bool) (gap : Bytes) : Prop where
  blank : gap.all isSpaceByte = true
  exact : lexical = true → gap = []

/-- The text is one character between the two that a range is given by. -/
def InRange (first last : Terminal) (text : Bytes) : Prop :=
  ∃ a b c, Utf8.chars first.text = [a] ∧ Utf8.chars last.text = [b] ∧
    Utf8.decode? text = some (c, text.length) ∧ a.toNat ≤ c.toNat ∧ c.toNat ≤ b.toNat

mutual

/-- The texts of an expression in a production that is lexical or not. -/
inductive Expression.Derives (grammar : Grammar) : Bool → Expression → Bytes → Prop where
  | token {lexical : Bool} {t : Terminal} {gap : Bytes} (hgap : Gap lexical gap) :
    Expression.Derives grammar lexical (.token t) (gap ++ t.text)
  | range {lexical : Bool} {first last : Terminal} {gap text : Bytes} (hgap : Gap lexical gap)
      (h : InRange first last text) :
    Expression.Derives grammar lexical (.range first last) (gap ++ text)
  | lexicalName {lexical : Bool} {position : Position} {target gap text : Bytes}
      (htarget : isLexical target = true) (hgap : Gap lexical gap)
      (h : Grammar.Derives grammar target text) :
    Expression.Derives grammar lexical (.name position target) (gap ++ text)
  | name {position : Position} {target text : Bytes} (htarget : isLexical target = false)
      (h : Grammar.Derives grammar target text) :
    Expression.Derives grammar false (.name position target) text
  | group {lexical : Bool} {position : Position} {body : Expression} {text : Bytes}
      (h : Expression.Derives grammar lexical body text) :
    Expression.Derives grammar lexical (.group position body) text
  | leftOut {lexical : Bool} {position : Position} {body : Expression} :
    Expression.Derives grammar lexical (.option position body) []
  | option {lexical : Bool} {position : Position} {body : Expression} {text : Bytes}
      (h : Expression.Derives grammar lexical body text) :
    Expression.Derives grammar lexical (.option position body) text
  | stop {lexical : Bool} {position : Position} {body : Expression} :
    Expression.Derives grammar lexical (.repetition position body) []
  | again {lexical : Bool} {position : Position} {body : Expression} {text rest : Bytes}
      (h : Expression.Derives grammar lexical body text)
      (hrest : Expression.Derives grammar lexical (.repetition position body) rest) :
    Expression.Derives grammar lexical (.repetition position body) (text ++ rest)
  | nil {lexical : Bool} : Expression.Derives grammar lexical (.sequence []) []
  | cons {lexical : Bool} {e : Expression} {es : List Expression} {text rest : Bytes}
      (h : Expression.Derives grammar lexical e text)
      (hrest : Expression.Derives grammar lexical (.sequence es) rest) :
    Expression.Derives grammar lexical (.sequence (e :: es)) (text ++ rest)
  | alternative {lexical : Bool} {e : Expression} {es : List Expression} {text : Bytes}
      (he : e ∈ es) (h : Expression.Derives grammar lexical e text) :
    Expression.Derives grammar lexical (.alternative es) text

/-- The texts of the production with a name. -/
inductive Grammar.Derives (grammar : Grammar) : Bytes → Bytes → Prop where
  | empty {name : Bytes} {p : Production} (hname : grammar.find? name = some p)
      (hbody : p.body = none) : Grammar.Derives grammar name []
  | body {name text : Bytes} {p : Production} {e : Expression}
      (hname : grammar.find? name = some p) (hbody : p.body = some e)
      (h : Expression.Derives grammar (isLexical name) e text) :
    Grammar.Derives grammar name text

end

/-- The whole texts of a start production: blanks may follow if it is not lexical. -/
def Grammar.DerivesWhole (grammar : Grammar) (start text : Bytes) : Prop :=
  ∃ body gap, text = body ++ gap ∧ grammar.Derives start body ∧ Gap (isLexical start) gap

theorem gap_nil (lexical : Bool) : Gap lexical [] := ⟨rfl, fun _ => rfl⟩

end Backtrack.Ebnf
