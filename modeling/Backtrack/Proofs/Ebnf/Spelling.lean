import Backtrack.Ebnf.Lexer
import Backtrack.Ebnf.Tree
import Backtrack.Proofs.Text.Characters
import Backtrack.Regex.Match
import Backtrack.Text.Unquote

/-!
# How grammars are spelled

The lexemes that the tree of a grammar text is spelled with, and how lexemes are laid out in a text,
without reference to any way of reading either. Blanks may stand between lexemes, and a name ends
where no letter, digit or low line follows.
-/

namespace Backtrack.Ebnf

open Text

structure Lexeme where
  kind : Kind
  text : Bytes

def Token.lexeme (t : Token) : Lexeme := ⟨t.kind, t.text⟩

namespace Lexeme

def name (text : Bytes) : Lexeme := ⟨.identifier, text⟩

def mark (c : Char) : Lexeme := ⟨.mark c, Utf8.encode c⟩

end Lexeme

def isNameStart (b : UInt8) : Bool := Bytes.isLetter b || b = Bytes.ascii '_'

/-- A letter or low line, and then letters, digits and low lines. -/
inductive Name : Bytes → Prop where
  | mk {b : UInt8} {rest : Bytes} (hb : isNameStart b = true) (hrest : rest.all isWordByte = true) :
    Name (b :: rest)

/-- A literal in double quotes or in back quotes, and the text that it stands for. -/
inductive Quoted (value : Bytes) : Lexeme → Prop where
  | double {inside : Bytes} (h : unquote? (34 :: inside) = some value) :
    Quoted value ⟨.string, 34 :: inside⟩
  | back {inside : Bytes} (h : unquote? (96 :: inside) = some value) :
    Quoted value ⟨.raw, 96 :: inside⟩

def marks : List Char := ['=', '.', '|', '(', ')', '[', ']', '\x7b', '\x7d', '…']

/-- What can be written in a grammar. -/
inductive Lexeme.Proper : Lexeme → Prop where
  | name {text : Bytes} (h : Name text) : Proper (.name text)
  | quoted {l : Lexeme} {value : Bytes} (h : Quoted value l) : Proper l
  | mark {c : Char} (h : c ∈ marks) : Proper (.mark c)

/-- Lexemes one after another, from one place of a text to another one that no blank stands at. -/
inductive Laid : List Lexeme → Bytes → Bytes → Prop where
  | nil (s : Bytes) : Laid [] s s
  | cons {l : Lexeme} {ls : List Lexeme} {s m u : Bytes} (hl : l.Proper)
      (hs : skip s = l.text ++ m) (hend : l.kind = .identifier → HeadNot isWordByte m)
      (hrest : Laid ls (skip m) u) : Laid (l :: ls) s u

namespace Tree

section Lists

variable (F : Factor → List Lexeme → Prop)

/-- Some terms one after another, each spelled as a language says. -/
inductive SequenceOf : List Factor → List Lexeme → Prop where
  | last {f : Factor} {ls : List Lexeme} (h : F f ls) : SequenceOf [f] ls
  | next {f : Factor} {fs : List Factor} {ls ls' : List Lexeme} (h : F f ls)
      (hrest : SequenceOf fs ls') : SequenceOf (f :: fs) (ls ++ ls')

inductive AlternativesOf : List (List Factor) → List Lexeme → Prop where
  | last {fs : List Factor} {ls : List Lexeme} (h : SequenceOf F fs ls) : AlternativesOf [fs] ls
  | next {fs : List Factor} {rest : List (List Factor)} {ls ls' : List Lexeme}
      (h : SequenceOf F fs ls) (hrest : AlternativesOf rest ls') :
      AlternativesOf (fs :: rest) (ls ++ .mark '|' :: ls')

end Lists

/-- The lexemes of a term. -/
inductive Factor.Spelled : Factor → List Lexeme → Prop where
  | name {n : Bytes} (h : Name n) : Spelled (.name n) [.name n]
  | text {first : Bytes} {l : Lexeme} (h : Quoted first l) : Spelled (.literal first none) [l]
  | range {first last : Bytes} {l l' : Lexeme} (h : Quoted first l) (h' : Quoted last l') :
    Spelled (.literal first (some last)) [l, .mark '…', l']
  | group {body : List (List Factor)} {ls : List Lexeme} (h : AlternativesOf Spelled body ls) :
    Spelled (.group body) (.mark '(' :: ls ++ [.mark ')'])
  | option {body : List (List Factor)} {ls : List Lexeme} (h : AlternativesOf Spelled body ls) :
    Spelled (.option body) (.mark '[' :: ls ++ [.mark ']'])
  | repetition {body : List (List Factor)} {ls : List Lexeme} (h : AlternativesOf Spelled body ls) :
    Spelled (.repetition body) (.mark '\x7b' :: ls ++ [.mark '\x7d'])

abbrev Alternatives.Spelled : Alternatives → List Lexeme → Prop := AlternativesOf Factor.Spelled

inductive Production.Spelled : Production → List Lexeme → Prop where
  | empty {n : Bytes} (hn : Name n) : Spelled ⟨n, []⟩ [.name n, .mark '=', .mark '.']
  | body {n : Bytes} {e : Alternatives} {ls : List Lexeme} (hn : Name n) (h : e.Spelled ls) :
    Spelled ⟨n, [e]⟩ (.name n :: .mark '=' :: ls ++ [.mark '.'])

inductive Document.Spelled : Document → List Lexeme → Prop where
  | nil : Spelled [] []
  | cons {p : Production} {d : Document} {ls ls' : List Lexeme} (h : p.Spelled ls)
      (hrest : Spelled d ls') : Spelled (p :: d) (ls ++ ls')

def starters : List Kind :=
  [.identifier, .string, .raw, .mark '(', .mark '[', .mark '\x7b']

theorem Factor.Spelled.exists_cons {f : Factor} {ls : List Lexeme} (h : f.Spelled ls) :
    ∃ l tail, ls = l :: tail ∧ l.kind ∈ starters := by
  cases h with
  | name => exact ⟨_, _, rfl, by simp [starters, Lexeme.name]⟩
  | text h | range h => cases h <;> exact ⟨_, _, rfl, by simp [starters]⟩
  | group | option | repetition => exact ⟨_, _, rfl, by simp [starters, Lexeme.mark]⟩

theorem SequenceOf.exists_cons {fs : List Factor} {ls : List Lexeme}
    (h : SequenceOf Factor.Spelled fs ls) : ∃ l tail, ls = l :: tail ∧ l.kind ∈ starters := by
  cases h with
  | last h => exact h.exists_cons
  | next h =>
    obtain ⟨l, tail, rfl, hl⟩ := h.exists_cons
    exact ⟨l, _, rfl, hl⟩

theorem Alternatives.Spelled.exists_cons {e : Alternatives} {ls : List Lexeme} (h : e.Spelled ls) :
    ∃ l tail, ls = l :: tail ∧ l.kind ∈ starters := by
  cases h with
  | last h => exact h.exists_cons
  | next h =>
    obtain ⟨l, tail, rfl, hl⟩ := h.exists_cons
    exact ⟨l, _, rfl, hl⟩

theorem SequenceOf.length_le {fs : List Factor} {ls : List Lexeme}
    (h : SequenceOf Factor.Spelled fs ls) : fs.length ≤ ls.length := by
  induction h with
  | last h =>
    obtain ⟨l, tail, rfl, _⟩ := h.exists_cons
    simp
  | next h _ ih =>
    obtain ⟨l, tail, rfl, _⟩ := h.exists_cons
    simp only [List.length_append, List.length_cons]
    omega

theorem Alternatives.Spelled.length_le {e : Alternatives} {ls : List Lexeme} (h : e.Spelled ls) :
    e.length ≤ ls.length := by
  induction h with
  | last h =>
    obtain ⟨l, tail, rfl, _⟩ := h.exists_cons
    simp
  | next h _ ih =>
    simp only [List.length_append, List.length_cons]
    omega

theorem Document.Spelled.length_le {d : Document} {ls : List Lexeme} (h : d.Spelled ls) :
    d.length ≤ ls.length := by
  induction h with
  | nil => exact Nat.le_refl _
  | cons h _ ih =>
    cases h <;> simp only [List.length_append, List.length_cons] <;> omega

end Tree

variable {l : Lexeme} {ls ls' : List Lexeme} {s m u : Bytes}

theorem Laid.append (h : Laid ls s m) (h' : Laid ls' m u) : Laid (ls ++ ls') s u := by
  induction h with
  | nil => exact h'
  | cons hl hs hend _ ih => exact .cons hl hs hend (ih h')

theorem Lexeme.Proper.ne_nil (h : l.Proper) : l.text ≠ [] := by
  cases h with
  | name h =>
    cases h
    nofun
  | quoted h => cases h <;> nofun
  | mark => exact Utf8.encode_ne_nil _

theorem length_skip_lt (hl : l.Proper) (hs : skip s = l.text ++ m) :
    (skip m).length < s.length := by
  have hskip := (skip_suffix s).length_le
  have hm := (skip_suffix m).length_le
  have hpos := List.length_pos_iff.mpr hl.ne_nil
  rw [hs, List.length_append] at hskip
  omega

theorem Laid.length_le (h : Laid ls s u) : u.length ≤ s.length := by
  induction h with
  | nil => exact Nat.le_refl _
  | cons hl hs _ _ ih => exact Nat.le_trans ih (Nat.le_of_lt (length_skip_lt hl hs))

theorem Laid.length_lt (h : Laid (l :: ls) s u) : u.length < s.length := by
  cases h with
  | cons hl hs _ hrest => exact Nat.lt_of_le_of_lt hrest.length_le (length_skip_lt hl hs)

theorem laid_single (hl : l.Proper) (hs : skip s = l.text ++ m)
    (hend : l.kind = .identifier → HeadNot isWordByte m) : Laid [l] s (skip m) :=
  .cons hl hs hend (.nil _)

theorem laid_mark {c : Char} (hc : c ∈ marks) (hs : skip s = Utf8.encode c ++ m) :
    Laid [.mark c] s (skip m) := laid_single (.mark hc) hs nofun

end Backtrack.Ebnf
