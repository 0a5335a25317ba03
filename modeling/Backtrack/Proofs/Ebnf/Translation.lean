import Backtrack.Ebnf.Reader
import Backtrack.Proofs.Ebnf.Completeness
import Backtrack.Proofs.Ebnf.Lexing

/-!
# The grammar that a tree stands for

A tree of a grammar text and a grammar keep the same things in two shapes: the tree has a list of
alternatives everywhere and a list of terms in each, the grammar has a list only where there is not
exactly one. The tree has no positions. From the lexemes that a tree is spelled with, the grammar is
read that it stands for, as long as no production is named twice.

Reading tokens is followed by the lexemes that are left: each reader passes over the lexemes of what
it reads and reports nothing. The induction is on how deep brackets are nested.

This module does NOT show that a text which spells a grammar can be read as a tree.
-/

namespace Backtrack.Ebnf

open Text

/-- An expression without its positions. -/
def Expression.unplaced : Expression → Expression
  | .name _ target => .name {} target
  | .token t => .token ⟨{}, t.text⟩
  | .range first last => .range ⟨{}, first.text⟩ ⟨{}, last.text⟩
  | .group _ body => .group {} body.unplaced
  | .option _ body => .option {} body.unplaced
  | .repetition _ body => .repetition {} body.unplaced
  | .sequence parts => .sequence (unplacedAll parts)
  | .alternative parts => .alternative (unplacedAll parts)
  | .bad _ problem => .bad {} problem
where
  unplacedAll : List Expression → List Expression
    | [] => []
    | e :: es => e.unplaced :: unplacedAll es

def Production.unplaced (p : Production) : Production :=
  ⟨{}, p.name, p.body.map Expression.unplaced⟩

theorem Expression.unplacedAll_eq (es : List Expression) :
    Expression.unplaced.unplacedAll es = es.map Expression.unplaced := by
  induction es with
  | nil => rfl
  | cons e es ih => rw [Expression.unplaced.unplacedAll, ih, List.map_cons]

/-- One expression stands for itself, any other number of them is put together. -/
def oneOr (make : List Expression → Expression) : List Expression → Expression
  | [e] => e
  | es => make es

theorem unplaced_oneOr {make : List Expression → Expression}
    (hmake : ∀ es, (make es).unplaced = make (es.map Expression.unplaced))
    (es : List Expression) :
    (oneOr make es).unplaced = oneOr make (es.map Expression.unplaced) := by
  match es with
  | [e] => rfl
  | [] => exact hmake []
  | e :: e' :: es => exact hmake _

theorem unplaced_sequence (es : List Expression) :
    (Expression.sequence es).unplaced = .sequence (es.map Expression.unplaced) := by
  rw [Expression.unplaced, Expression.unplacedAll_eq]

theorem unplaced_alternative (es : List Expression) :
    (Expression.alternative es).unplaced = .alternative (es.map Expression.unplaced) := by
  rw [Expression.unplaced, Expression.unplacedAll_eq]

namespace Tree

mutual

def Factor.toExpression : Factor → Expression
  | .name n => .name {} n
  | .literal first none => .token ⟨{}, first⟩
  | .literal first (some last) => .range ⟨{}, first⟩ ⟨{}, last⟩
  | .group body => .group {} (oneOr .alternative (alternativesToExpressions body))
  | .option body => .option {} (oneOr .alternative (alternativesToExpressions body))
  | .repetition body => .repetition {} (oneOr .alternative (alternativesToExpressions body))

def alternativesToExpressions : List (List Factor) → List Expression
  | [] => []
  | terms :: rest => oneOr .sequence (termsToExpressions terms) :: alternativesToExpressions rest

def termsToExpressions : List Factor → List Expression
  | [] => []
  | term :: rest => term.toExpression :: termsToExpressions rest

end

def Alternatives.toExpression (e : Alternatives) : Expression :=
  oneOr .alternative (alternativesToExpressions e)

def Production.translate? (p : Tree.Production) : Option Ebnf.Production :=
  match p.body with
  | [] => some ⟨{}, p.name, none⟩
  | [e] => some ⟨{}, p.name, some (Alternatives.toExpression e)⟩
  | _ => none

end Tree

def Reading.lexemes (r : Reading) : List Lexeme := (r.current :: r.later).map Token.lexeme

namespace Reader

variable {α β : Type} {before middle after : List Lexeme} {l l' : Lexeme} {ls rest : List Lexeme}

/-- From tokens with some lexemes a reader gets to tokens with others; what it answers is as it
should be, and it finds no flaw. -/
def Passes (p : Reader α) (good : α → Prop) (before after : List Lexeme) : Prop :=
  ∀ r : Reading, r.lexemes = before →
    good (p.run r).1 ∧ (p.run r).2.lexemes = after ∧ (p.run r).2.flaws = r.flaws

theorem passes_pure {good : α → Prop} {v : α} (h : good v) :
    Passes (pure v) good before before := fun _ hr => ⟨h, hr, rfl⟩

theorem Passes.bind {p : Reader α} {f : α → Reader β} {good : α → Prop} {good' : β → Prop}
    (hp : Passes p good before middle) (hf : ∀ v, good v → Passes (f v) good' middle after) :
    Passes (p >>= f) good' before after := by
  intro r hr
  obtain ⟨hgood, hmiddle, hflaws⟩ := hp r hr
  obtain ⟨hgood', hafter, hflaws'⟩ := hf _ hgood _ hmiddle
  exact ⟨hgood', hafter, hflaws'.trans hflaws⟩

theorem Passes.map {p : Reader α} {f : α → β} {good : α → Prop} {good' : β → Prop}
    (hp : Passes p good before after) (hf : ∀ v, good v → good' (f v)) :
    Passes (do return f (← p)) good' before after :=
  hp.bind fun _ hv => passes_pure (hf _ hv)

theorem Passes.mono {p : Reader α} {good good' : α → Prop} (hp : Passes p good before after)
    (h : ∀ v, good v → good' v) : Passes p good' before after := by
  intro r hr
  obtain ⟨hgood, hrest⟩ := hp r hr
  exact ⟨h _ hgood, hrest⟩

theorem passes_current : Passes current (fun t => t.lexeme = l) (l :: ls) (l :: ls) := by
  intro r hr
  exact ⟨(List.cons.inj hr).1, hr, rfl⟩

theorem passes_other {kind : Kind} (h : l.kind ≠ kind) :
    Passes current (fun t => t.kind ≠ kind) (l :: ls) (l :: ls) := by
  apply passes_current.mono
  intro t ht
  rwa [← ht] at h

theorem passes_get : Passes get (fun r => r.lexemes = ls) ls ls := fun _ hr => ⟨hr, hr, rfl⟩

theorem passes_advance : Passes advance (fun _ => True) (l :: l' :: ls) (l' :: ls) := by
  intro r hr
  obtain ⟨current, later, flaws⟩ := r
  cases later with
  | nil => cases hr
  | cons t ts => exact ⟨trivial, (List.cons.inj hr).2, rfl⟩

theorem passes_advance_append :
    Passes advance (fun _ => True) (l :: (ls ++ l' :: rest)) (ls ++ l' :: rest) := by
  cases ls <;> exact passes_advance

theorem passes_expect {kind : Kind} (h : l.kind = kind) :
    Passes (expect kind) (fun _ => True) (l :: l' :: ls) (l' :: ls) := by
  unfold expect
  apply passes_current.bind
  intro t ht
  have hkind : t.kind = kind := by rw [← h, ← ht]; rfl
  rw [if_neg (not_not_intro hkind)]
  exact passes_advance

theorem passes_name {n : Bytes} :
    Passes name (fun v => v.2 = n) (.name n :: l :: ls) (l :: ls) := by
  unfold name
  apply passes_current.bind
  intro t ht
  apply (passes_expect (l := .name n) rfl).bind
  intro _ _
  exact passes_pure (congrArg Lexeme.text ht)

theorem passes_terminal {value : Bytes} (h : Quoted value l) :
    Passes terminal (fun t => t.text = value) (l :: l' :: ls) (l' :: ls) := by
  unfold terminal
  apply passes_current.bind
  intro t ht
  have hkind : t.kind = .string ∨ t.kind = .raw := by
    have hlexeme : t.kind = l.kind := congrArg Lexeme.kind ht
    rw [hlexeme]
    cases h with
    | double => exact .inl rfl
    | back => exact .inr rfl
  have htext : (unquote? t.text).getD [] = value := by
    have hlexeme : t.text = l.text := congrArg Lexeme.text ht
    rw [hlexeme]
    cases h with
    | double h | back h => rw [h]; rfl
  rw [if_pos hkind]
  apply passes_advance.bind
  intro _ _
  exact passes_pure htext

theorem passes_token {value : Bytes} (h : Quoted value l) (hl' : l'.kind ≠ .mark '…') :
    Passes terminalOrRange (fun e => e.unplaced = .token ⟨{}, value⟩) (l :: l' :: ls)
      (l' :: ls) := by
  unfold terminalOrRange
  apply (passes_terminal h).bind
  intro first hfirst
  apply (passes_other hl').bind
  intro t ht
  rw [if_neg ht]
  exact passes_pure (by rw [Expression.unplaced, hfirst])

theorem passes_range {first last : Bytes} {l'' : Lexeme} (h : Quoted first l)
    (h' : Quoted last l') :
    Passes terminalOrRange (fun e => e.unplaced = .range ⟨{}, first⟩ ⟨{}, last⟩)
      (l :: .mark '…' :: l' :: l'' :: ls) (l'' :: ls) := by
  unfold terminalOrRange
  apply (passes_terminal h).bind
  intro t ht
  apply passes_current.bind
  intro dots hdots
  have hkind : dots.kind = .mark '…' := congrArg Lexeme.kind hdots
  rw [if_pos hkind]
  apply passes_advance.bind
  intro _ _
  apply (passes_terminal h').map
  intro t' ht'
  rw [Expression.unplaced, ht, ht']

def closers : List Kind := [.mark '.', .mark ')', .mark ']', .mark '\x7d']

def ReadsUpTo (depth : Nat) (ex : Reader Expression) : Prop :=
  ∀ ⦃body : Tree.Alternatives⦄ ⦃inside l rest⦄, body.Spelled inside → inside.length < depth →
    l.kind ∈ closers →
    Passes ex (fun e => e.unplaced = body.toExpression) (inside ++ l :: rest) (l :: rest)

variable {depth : Nat} {ex : Reader Expression}

theorem passes_no_term (hl : l.kind ∈ Kind.mark '|' :: closers) :
    Passes (term? ex) (fun o => o = none) (l :: ls) (l :: ls) := by
  unfold term?
  apply passes_current.bind
  intro t ht
  have hkind : t.kind ∈ Kind.mark '|' :: closers := by rwa [← ht] at hl
  simp only [closers, List.mem_cons, List.not_mem_nil, or_false] at hkind
  rcases hkind with hkind | hkind | hkind | hkind | hkind
  all_goals
    rw [hkind]
    exact passes_pure rfl

theorem passes_bracketed (make : Position → Expression → Expression) {opening closing : Char}
    {p : Position} {body : Tree.Alternatives} {inside : List Lexeme} (hex : ReadsUpTo depth ex)
    (h : body.Spelled inside)
    (hdepth : (Lexeme.mark opening :: inside ++ [Lexeme.mark closing]).length ≤ depth)
    (hclosing : Kind.mark closing ∈ closers)
    (hmake : ∀ e : Expression, (make p e).unplaced = make {} e.unplaced) :
    Passes (do advance; let e ← ex; expect (.mark closing); return some (make p e))
      (fun o => o.map Expression.unplaced = some (make {} body.toExpression))
      (.mark opening :: inside ++ [.mark closing] ++ l :: rest) (l :: rest) := by
  rw [List.append_assoc, List.singleton_append]
  apply passes_advance_append.bind
  intro _ _
  have hinside : inside.length < depth := by
    simp only [List.length_append, List.length_cons] at hdepth
    omega
  apply (hex h hinside hclosing).bind
  intro e he
  apply (passes_expect (l := .mark closing) rfl).bind
  intro _ _
  exact passes_pure (by rw [Option.map_some, hmake, he])

theorem passes_literal {value : Bytes} {e : Expression} (h : Quoted value l)
    (hread : Passes terminalOrRange (fun e' => e'.unplaced = e) (l :: ls) after) :
    Passes (term? ex) (fun o => o.map Expression.unplaced = some e) (l :: ls) after := by
  unfold term?
  apply passes_current.bind
  intro t ht
  have hkind : t.kind = l.kind := congrArg Lexeme.kind ht
  have hmap : Passes (do return some (← terminalOrRange))
      (fun o => o.map Expression.unplaced = some e) (l :: ls) after :=
    hread.map fun _ he => congrArg some he
  cases h with
  | double | back =>
    rw [hkind]
    exact hmap

theorem passes_term {f : Tree.Factor} (hex : ReadsUpTo depth ex) (h : f.Spelled ls)
    (hdepth : ls.length ≤ depth) (hl : l.kind ≠ .mark '…') :
    Passes (term? ex) (fun o => o.map Expression.unplaced = some f.toExpression)
      (ls ++ l :: rest) (l :: rest) := by
  cases h with
  | name hn =>
    unfold term?
    apply passes_current.bind
    intro t ht
    have hkind : t.kind = .identifier := congrArg Lexeme.kind ht
    rw [hkind]
    apply passes_name.bind
    rintro ⟨p, n⟩ rfl
    exact passes_pure rfl
  | text h => exact passes_literal h (passes_token h hl)
  | range h h' => exact passes_literal h (passes_range h h')
  | group h =>
    unfold term?
    apply passes_current.bind
    intro t ht
    have hkind : t.kind = .mark '(' := congrArg Lexeme.kind ht
    rw [hkind]
    exact passes_bracketed .group hex h hdepth (by decide) fun _ => rfl
  | option h =>
    unfold term?
    apply passes_current.bind
    intro t ht
    have hkind : t.kind = .mark '[' := congrArg Lexeme.kind ht
    rw [hkind]
    exact passes_bracketed .option hex h hdepth (by decide) fun _ => rfl
  | repetition h =>
    unfold term?
    apply passes_current.bind
    intro t ht
    have hkind : t.kind = .mark '\x7b' := congrArg Lexeme.kind ht
    rw [hkind]
    exact passes_bracketed .repetition hex h hdepth (by decide) fun _ => rfl

theorem passes_no_terms {fuel : Nat} (hl : l.kind ∈ Kind.mark '|' :: closers) :
    Passes (terms ex fuel) (fun es => es = []) (l :: ls) (l :: ls) := by
  cases fuel with
  | zero => exact passes_pure rfl
  | succ fuel =>
    unfold terms
    apply (passes_no_term hl).bind
    rintro _ rfl
    exact passes_pure rfl

open Ebnf.Tree in
theorem passes_terms {fs : List Factor} (hex : ReadsUpTo depth ex)
    (h : SequenceOf Factor.Spelled fs ls) (hdepth : ls.length ≤ depth) {fuel : Nat}
    (hfuel : fs.length ≤ fuel) (hl : l.kind ∈ Kind.mark '|' :: closers) :
    Passes (terms ex fuel) (fun es => es.map Expression.unplaced = termsToExpressions fs)
      (ls ++ l :: rest) (l :: rest) := by
  induction h generalizing fuel with
  | last hf =>
    obtain ⟨fuel, rfl⟩ := Nat.exists_eq_add_one_of_ne_zero (Nat.ne_zero_of_lt hfuel)
    have hdots : l.kind ≠ .mark '…' := fun h => absurd (h ▸ hl) (by decide)
    unfold terms
    apply (passes_term hex hf hdepth hdots).bind
    intro o ho
    obtain ⟨e, rfl, he⟩ := Option.map_eq_some_iff.mp ho
    apply (passes_no_terms hl).map
    rintro _ rfl
    rw [List.map_singleton, he]
    rfl
  | @next f fs ls ls' hf hrest ih =>
    obtain ⟨fuel, rfl⟩ := Nat.exists_eq_add_one_of_ne_zero (Nat.ne_zero_of_lt hfuel)
    obtain ⟨first, tail, hfirst, hstart⟩ := hrest.exists_cons
    have hdots : first.kind ≠ .mark '…' := fun h => absurd (h ▸ hstart) (by decide)
    rw [List.length_append] at hdepth
    have hterm : Passes (term? ex) (fun o => o.map Expression.unplaced = some f.toExpression)
        (ls ++ first :: (tail ++ l :: rest)) (first :: (tail ++ l :: rest)) :=
      passes_term hex hf (by omega) hdots
    rw [← List.cons_append, ← hfirst, ← List.append_assoc] at hterm
    unfold terms
    apply hterm.bind
    intro o ho
    obtain ⟨e, rfl, he⟩ := Option.map_eq_some_iff.mp ho
    apply (ih (by omega) (Nat.le_of_succ_le_succ hfuel)).map
    intro es hes
    rw [List.map_cons, he, hes]
    rfl

open Ebnf.Tree in
theorem passes_sequence {fs : List Factor} (hex : ReadsUpTo depth ex)
    (h : SequenceOf Factor.Spelled fs ls) (hdepth : ls.length ≤ depth)
    (hl : l.kind ∈ Kind.mark '|' :: closers) :
    Passes (sequence ex) (fun e => e.unplaced = oneOr .sequence (termsToExpressions fs))
      (ls ++ l :: rest) (l :: rest) := by
  unfold sequence
  apply passes_get.bind
  intro r hr
  have hlater : r.later.length + 1 = (ls ++ l :: rest).length := by
    rw [← hr, Reading.lexemes, List.length_map, List.length_cons]
  have hfuel : fs.length ≤ r.later.length + 1 := by
    have hle := h.length_le
    rw [hlater, List.length_append]
    omega
  apply (passes_terms hex h hdepth hfuel hl).bind
  intro es hes
  have hone : (oneOr Expression.sequence es).unplaced =
      oneOr .sequence (termsToExpressions fs) := by
    rw [unplaced_oneOr unplaced_sequence, hes]
  match es with
  | [] => cases h <;> cases hes
  | [e] => exact passes_pure hone
  | e :: e' :: es => exact passes_pure hone

open Ebnf.Tree in
theorem passes_alternatives {body : Alternatives} (hex : ReadsUpTo depth ex)
    (h : body.Spelled ls) (hdepth : ls.length ≤ depth) {fuel : Nat} (hfuel : body.length ≤ fuel)
    (hl : l.kind ∈ closers) :
    Passes (alternatives ex fuel)
      (fun es => es.map Expression.unplaced = alternativesToExpressions body)
      (ls ++ l :: rest) (l :: rest) := by
  induction h generalizing fuel with
  | last h =>
    obtain ⟨fuel, rfl⟩ := Nat.exists_eq_add_one_of_ne_zero (Nat.ne_zero_of_lt hfuel)
    have hbar : l.kind ≠ .mark '|' := fun h => absurd (h ▸ hl) (by decide)
    unfold alternatives
    apply (passes_sequence hex h hdepth (List.mem_cons_of_mem _ hl)).bind
    intro e he
    apply (passes_other hbar).bind
    intro t ht
    rw [if_neg ht]
    exact passes_pure (by rw [List.map_singleton, he]; rfl)
  | @next fs body ls ls' h hrest ih =>
    obtain ⟨fuel, rfl⟩ := Nat.exists_eq_add_one_of_ne_zero (Nat.ne_zero_of_lt hfuel)
    rw [List.length_append, List.length_cons] at hdepth
    have hsequence : Passes (sequence ex)
        (fun e => e.unplaced = oneOr .sequence (termsToExpressions fs))
        (ls ++ .mark '|' :: (ls' ++ l :: rest)) (.mark '|' :: (ls' ++ l :: rest)) :=
      passes_sequence hex h (by omega) List.mem_cons_self
    rw [List.append_assoc, List.cons_append]
    unfold alternatives
    apply hsequence.bind
    intro e he
    apply passes_current.bind
    intro t ht
    have hkind : t.kind = .mark '|' := congrArg Lexeme.kind ht
    rw [if_pos hkind]
    apply passes_advance_append.bind
    intro _ _
    apply (ih (by omega) (Nat.le_of_succ_le_succ hfuel)).map
    intro es hes
    rw [List.map_cons, he, hes]
    rfl

/-- Expressions are read however deep brackets are nested in them. -/
theorem readsUpTo_expression (depth : Nat) : ReadsUpTo depth (expression depth) := by
  induction depth with
  | zero => exact fun _ _ _ _ _ h => absurd h (Nat.not_lt_zero _)
  | succ depth ih =>
    intro body inside l rest h hdepth hl
    unfold expression
    apply passes_get.bind
    intro r hr
    have hlater : r.later.length + 1 = (inside ++ l :: rest).length := by
      rw [← hr, Reading.lexemes, List.length_map, List.length_cons]
    have hfuel : body.length ≤ r.later.length + 1 := by
      have hle := h.length_le
      rw [hlater, List.length_append]
      omega
    apply (passes_alternatives ih h (Nat.le_of_lt_succ hdepth) hfuel hl).bind
    intro es hes
    have hone : (oneOr Expression.alternative es).unplaced = body.toExpression := by
      rw [unplaced_oneOr unplaced_alternative, hes]
      rfl
    match es with
    | [] => exact passes_pure hone
    | [e] => exact passes_pure hone
    | e :: e' :: es => exact passes_pure hone

theorem passes_production {p : Tree.Production} (h : p.Spelled ls) :
    Passes production (fun q => some q.unplaced = p.translate?) (ls ++ l :: rest) (l :: rest) := by
  unfold production
  cases h with
  | @empty n hn =>
    simp only [List.cons_append, List.nil_append]
    apply passes_name.bind
    rintro ⟨position, _⟩ rfl
    apply (passes_expect (l := .mark '=') rfl).bind
    intro _ _
    apply (passes_current (l := .mark '.')).bind
    intro t ht
    have hkind : t.kind = .mark '.' := congrArg Lexeme.kind ht
    rw [if_pos hkind]
    apply passes_advance.bind
    intro _ _
    exact passes_pure rfl
  | @body n e inside hn h =>
    obtain ⟨first, tail, hfirst, hstart⟩ := Tree.Alternatives.Spelled.exists_cons h
    have hpoint : first.kind ≠ .mark '.' := fun h => absurd (h ▸ hstart) (by decide)
    rw [List.append_assoc, List.singleton_append, List.cons_append, List.cons_append]
    apply passes_name.bind
    rintro ⟨position, n⟩ rfl
    have hequals : Passes (expect (.mark '=')) (fun _ => True)
        (.mark '=' :: (inside ++ .mark '.' :: l :: rest)) (inside ++ .mark '.' :: l :: rest) := by
      rw [hfirst]
      exact passes_expect rfl
    apply hequals.bind
    intro _ _
    have hcurrent : Passes current (fun t => t.kind ≠ .mark '.')
        (inside ++ .mark '.' :: l :: rest) (inside ++ .mark '.' :: l :: rest) := by
      rw [hfirst]
      exact passes_other hpoint
    apply hcurrent.bind
    intro t ht
    rw [if_neg ht]
    apply passes_get.bind
    intro r hr
    have hlater : r.later.length + 1 = (inside ++ .mark '.' :: l :: rest).length := by
      rw [← hr, Reading.lexemes, List.length_map, List.length_cons]
    have hdepth : inside.length < r.later.length + 1 := by
      rw [hlater, List.length_append, List.length_cons]
      omega
    apply (readsUpTo_expression _ h hdepth (by decide)).bind
    intro body hbody
    apply (passes_expect (l := .mark '.') rfl).bind
    intro _ _
    apply passes_pure
    rw [Production.unplaced, Option.map_some, hbody]
    rfl

theorem name_of_translate? {p : Tree.Production} {q : Production}
    (h : some q.unplaced = p.translate?) : q.name = p.name := by
  unfold Tree.Production.translate? at h
  split at h
  · exact congrArg Production.name (Option.some.inj h)
  · exact congrArg Production.name (Option.some.inj h)
  · cases h

/-- Productions are read one after another as long as their names are new. -/
theorem passes_productions (grammar : Grammar) {d : Tree.Document} {fuel : Nat}
    (h : d.Spelled ls) (hfuel : d.length ≤ fuel)
    (hnames : (grammar.map Production.name ++ d.map Tree.Production.name).Nodup) :
    Passes (productions grammar fuel)
      (fun g => ∃ ps : List Production, g = grammar ++ ps ∧
        ps.map (fun p => some p.unplaced) = d.map Tree.Production.translate?)
      (ls ++ [⟨.ending, []⟩]) [⟨.ending, []⟩] := by
  induction h generalizing grammar fuel with
  | nil =>
    cases fuel with
    | zero => exact passes_pure ⟨[], by simp⟩
    | succ fuel =>
      unfold productions
      apply (passes_current (l := ⟨.ending, []⟩)).bind
      intro t ht
      have hkind : t.kind = .ending := congrArg Lexeme.kind ht
      rw [if_pos hkind]
      exact passes_pure ⟨[], by simp⟩
  | @cons p d ls ls' hp hd ih =>
    obtain ⟨fuel, rfl⟩ := Nat.exists_eq_add_one_of_ne_zero (Nat.ne_zero_of_lt hfuel)
    have hcurrent : Passes current (fun t => t.kind ≠ .ending)
        (ls ++ ls' ++ [⟨.ending, []⟩]) (ls ++ ls' ++ [⟨.ending, []⟩]) := by
      cases hp <;> exact passes_other nofun
    unfold productions
    apply hcurrent.bind
    intro t ht
    rw [if_neg ht]
    have hproduction : Passes production (fun q => some q.unplaced = p.translate?)
        (ls ++ ls' ++ [⟨.ending, []⟩]) (ls' ++ [⟨.ending, []⟩]) := by
      rw [List.append_assoc]
      cases ls' <;> exact passes_production hp
    apply hproduction.bind
    intro q hq
    have hname := name_of_translate? hq
    have hnew : grammar.find? q.name = none := by
      apply List.find?_eq_none.mpr
      intro p' hp'
      have hdisjoint := (List.nodup_append.mp hnames).2.2 p'.name (List.mem_map_of_mem hp')
        p.name (by simp)
      simpa [hname] using hdisjoint
    rw [hnew]
    have hnodup : ((grammar ++ [q]).map Production.name ++
        d.map Tree.Production.name).Nodup := by
      rw [List.map_append, List.map_singleton, hname, List.append_assoc, List.singleton_append]
      exact hnames
    apply (ih (grammar ++ [q]) (Nat.le_of_succ_le_succ hfuel) hnodup).mono
    rintro g ⟨ps, rfl, hps⟩
    refine ⟨q :: ps, ?_, ?_⟩
    · rw [List.append_assoc, List.singleton_append]
    · rw [List.map_cons, List.map_cons, hq, hps]

end Reader

end Backtrack.Ebnf
