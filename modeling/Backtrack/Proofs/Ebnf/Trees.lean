import Backtrack.Ebnf.Tree.Grammar
import Backtrack.Proofs.Ebnf.Spelling
import Backtrack.Proofs.Parser.Tokens
import Backtrack.Proofs.Regex.Runs

/-!
# Trees are spelled in their texts

The tree that is read from a grammar text is spelled there: the lexemes of the tree stand in the
text in order, and nothing but blanks stands between them. This holds for expressions by induction
on how deep references are followed. A production has one expression at most, because an expression
ends only where no further one begins.

This module does NOT show that every text that spells a tree is read.
-/

namespace Backtrack.Ebnf.Tree

open Text

variable {rd : Backtrack.Reader Rule.type} {α β : Type} {s u : Bytes}

/-- Whatever a term reads is spelled with the lexemes that it passes over. -/
def Spells (rd : Backtrack.Reader Rule.type) (p : Grammar α) (S : α → List Lexeme → Prop) : Prop :=
  ∀ ⦃s v u⦄, rd.Reads p s v u → ∃ ls, S v ls ∧ Laid ls s u

theorem namePattern_eq : namePattern =
    Backtrack.Reader.wordPattern (.ranges [(97, 122), (65, 90), (95, 95)]) .word := rfl

theorem contains_nameStart (b : UInt8) :
    (CharClass.ranges [(97, 122), (65, 90), (95, 95)]).contains b.toNat = isNameStart b := by
  revert b
  exact Bytes.forall_byte (by decide +kernel)

theorem spells_name : Spells rd name fun n ls => Name n ∧ ls = [.name n] := by
  intro s n u h
  obtain ⟨_, m, hm, rfl⟩ := Backtrack.Reader.reads_trim.mp h
  have hword : Regex.Narrow .word := Regex.narrow_ranges (by decide)
  rw [namePattern_eq, Backtrack.Reader.reads_word (Regex.narrow_ranges (by decide)) hword] at hm
  obtain ⟨_, hs, ⟨b, rest, rfl, hb, hrest⟩, hend⟩ := hm
  rw [contains_nameStart] at hb
  have hname : Name (b :: rest) := .mk hb (List.all_eq_true.mpr hrest)
  exact ⟨_, ⟨hname, rfl⟩, laid_single (.name hname) hs fun _ => hend⟩

theorem reads_name {n m : Bytes} (hn : Name n) (hs : s <:+ rd.bytes) (hskip : skip s = n ++ m)
    (hend : HeadNot isWordByte m) : rd.Reads name s n (skip m) := by
  refine Backtrack.Reader.reads_trim.mpr ⟨hs, m, ?_, rfl⟩
  have hword : Regex.Narrow .word := Regex.narrow_ranges (by decide)
  rw [namePattern_eq, Backtrack.Reader.reads_word (Regex.narrow_ranges (by decide)) hword]
  cases hn with
  | @mk b rest hb hrest =>
    exact ⟨(skip_suffix s).trans hs, hskip,
      ⟨b, rest, rfl, (contains_nameStart b).trans hb, List.all_eq_true.mp hrest⟩, hend⟩

theorem quoted_of_unquote {token value : Bytes} (h : unquote? token = some value) :
    ∃ kind, Quoted value ⟨kind, token⟩ := by
  unfold unquote? at h
  split at h
  · exact ⟨.string, .double h⟩
  · exact ⟨.raw, .back h⟩
  · cases h

theorem Quoted.kind_ne {value : Bytes} {l : Lexeme} (h : Quoted value l) :
    l.kind ≠ .identifier := by
  cases h <;> nofun

theorem spells_text : Spells rd text fun v ls => ∃ l, Quoted v l ∧ ls = [l] := by
  intro s v u h
  obtain ⟨_, m, hm, rfl⟩ := Backtrack.Reader.reads_trim.mp h
  obtain ⟨token, htoken, hunquote⟩ := Backtrack.Reader.reads_mapErr.mp hm
  obtain ⟨_, hs, _⟩ := (Backtrack.Reader.reads_pattern rfl).mp htoken
  unfold unquote at hunquote
  split at hunquote
  · rename_i value hvalue
    cases hunquote
    obtain ⟨kind, hquoted⟩ := quoted_of_unquote hvalue
    exact ⟨_, ⟨_, hquoted, rfl⟩,
      laid_single (.quoted hquoted) hs fun hkind => absurd hkind (Quoted.kind_ne hquoted)⟩
  · cases hunquote

theorem laid_token {mark v : Bytes} {c : Char} (hc : c ∈ marks) (hmark : mark = Utf8.encode c)
    (h : rd.Reads (token mark) s v u) : Laid [.mark c] s u := by
  obtain ⟨_, m, hm, rfl⟩ := Backtrack.Reader.reads_trim.mp h
  exact laid_mark hc (hmark ▸ (Backtrack.Reader.reads_literal.mp hm).2.1)

theorem reads_token {mark m : Bytes} (hs : s <:+ rd.bytes) (hskip : skip s = mark ++ m) :
    rd.Reads (token mark) s mark (skip m) := by
  have hmark : rd.Reads (.literal mark) (skip s) mark m :=
    Backtrack.Reader.reads_literal.mpr ⟨(skip_suffix s).trans hs, hskip, rfl⟩
  exact Backtrack.Reader.reads_trim.mpr ⟨hs, m, hmark, rfl⟩

theorem laid_required {mark v : Bytes} {c : Char} (hc : c ∈ marks)
    (hmark : mark = Utf8.encode c) (h : rd.Reads (required mark) s v u) : Laid [.mark c] s u :=
  laid_token hc hmark ((Backtrack.Reader.reads_expect _).mp h)

theorem rejects_name (hs : s <:+ rd.bytes) (h : HeadNot isNameStart (skip s)) :
    rd.Rejects name s := by
  have hskip := (skip_suffix s).trans hs
  refine Backtrack.Reader.rejects_trim hs (Backtrack.Reader.rejects_pattern rfl hskip ?_)
  rw [namePattern_eq]
  apply Backtrack.Reader.tries_word_none (Regex.narrow_ranges (by decide)) hskip
  exact fun b hb => (contains_nameStart b).trans (h b hb)

def isQuote (b : UInt8) : Bool := b = 34 || b = 96

theorem rejects_text (hs : s <:+ rd.bytes) (h : HeadNot isQuote (skip s)) :
    rd.Rejects text s := by
  have hskip := (skip_suffix s).trans hs
  refine Backtrack.Reader.rejects_trim hs (Backtrack.Reader.rejects_mapErr ?_)
  refine Backtrack.Reader.rejects_pattern rfl hskip ?_
  have hmark : ∀ {c : Char} {k : Bytes → Option Bytes} (hc : c.toNat < 128),
      isQuote (Bytes.ascii c) = true →
      Regex.tries rd.input.text (placeOf rd.input.text (skip s)) (.chars (.single c)) (skip s) k =
        none := by
    intro c k hc hquote
    apply Option.eq_none_iff_forall_ne_some.mpr
    intro x hx
    obtain ⟨u, hu, _⟩ := Regex.of_tries_single hc hskip hx
    rw [hu, headNot_cons, hquote] at h
    cases h
  have hpattern : textPattern = .seq (.check .beginText) (.alt
      (.seq (.seq (.chars (.single '\x22')) _) _)
      (.seq (.seq (.chars (.single '\x60')) _) _)) := rfl
  rw [hpattern, Regex.tries_anchor hskip, Regex.tries_alt]
  iterate 4 rw [Regex.tries_seq]
  rw [hmark (by decide) (by decide), hmark (by decide) (by decide)]
  rfl

theorem rejects_token {mark more : Bytes} {b : UInt8} (hmark : mark = b :: more)
    (hs : s <:+ rd.bytes) (h : HeadNot (· = b) (skip s)) : rd.Rejects (token mark) s := by
  apply Backtrack.Reader.rejects_trim hs
  apply Backtrack.Reader.rejects_literal ((skip_suffix s).trans hs)
  rintro ⟨rest, hrest⟩
  rw [← hrest, hmark, List.cons_append, headNot_cons] at h
  simp at h

theorem rejects_nested {opening closing : Bytes} {make : Alternatives → Factor} {b : UInt8}
    (hopening : opening = [b]) (hs : s <:+ rd.bytes) (h : HeadNot (· = b) (skip s)) :
    rd.Rejects ((nested opening closing).map make) s := by
  apply Backtrack.Reader.rejects_map
  apply Backtrack.Reader.rejects_skipRight
  apply Backtrack.Reader.rejects_skipLeft
  exact rejects_token hopening hs h

def startsTerm (b : UInt8) : Bool :=
  isNameStart b || isQuote b || b = 40 || b = 91 || b = 123

theorem rejects_term (hs : s <:+ rd.bytes) (h : HeadNot startsTerm (skip s)) :
    rd.Rejects term s := by
  have hfalse : ∀ b : UInt8, startsTerm b = false → isNameStart b = false ∧ isQuote b = false ∧
      decide (b = 40) = false ∧ decide (b = 91) = false ∧ decide (b = 123) = false := by
    intro b hb
    simpa [startsTerm, and_assoc] using hb
  apply Backtrack.Reader.rejects_choice_cons
  · apply Backtrack.Reader.rejects_map
    exact rejects_name hs (headNot_mono h fun b hb => (hfalse b hb).1)
  apply Backtrack.Reader.rejects_choice_cons
  · apply Backtrack.Reader.rejects_map
    apply Backtrack.Reader.rejects_and
    exact rejects_text hs (headNot_mono h fun b hb => (hfalse b hb).2.1)
  apply Backtrack.Reader.rejects_choice_cons
  · exact rejects_nested (b := 40) rfl hs (headNot_mono h fun b hb => (hfalse b hb).2.2.1)
  apply Backtrack.Reader.rejects_choice_cons
  · exact rejects_nested (b := 91) rfl hs (headNot_mono h fun b hb => (hfalse b hb).2.2.2.1)
  apply Backtrack.Reader.rejects_choice_cons
  · exact rejects_nested (b := 123) rfl hs (headNot_mono h fun b hb => (hfalse b hb).2.2.2.2)
  exact Backtrack.Reader.rejects_choice_nil hs

theorem rejects_expression (hs : s <:+ rd.bytes) (h : HeadNot startsTerm (skip s)) :
    rd.Rejects expression s := by
  apply Backtrack.Reader.rejects_map
  apply Backtrack.Reader.rejects_and
  apply Backtrack.Reader.rejects_many1
  exact Backtrack.Reader.rejects_named (rejects_term hs h)
theorem spells_literal : Spells rd literal Factor.Spelled := by
  intro s f u h
  obtain ⟨⟨first, last⟩, hpair, rfl⟩ := Backtrack.Reader.reads_map.mp h
  obtain ⟨m, hfirst, hlast⟩ := Backtrack.Reader.reads_and.mp hpair
  obtain ⟨_, ⟨l, hl, rfl⟩, hm⟩ := spells_text hfirst
  rcases Backtrack.Reader.reads_optional.mp hlast with hlast | ⟨_, rfl, hnone⟩
  · obtain ⟨value, hrange, hsome⟩ := Backtrack.Reader.reads_map.mp hlast
    obtain ⟨_, w, hdots, hvalue⟩ := Backtrack.Reader.reads_skipLeft.mp hrange
    obtain ⟨_, ⟨l', hl', rfl⟩, hw⟩ := spells_text ((Backtrack.Reader.reads_expect _).mp hvalue)
    have hdots := laid_token (c := '…') (by decide) rfl hdots
    dsimp only at hsome
    rw [← hsome]
    exact ⟨_, .range hl hl', hm.append (hdots.append hw)⟩
  · dsimp only at hnone
    rw [← hnone]
    exact ⟨_, .text hl, hm⟩

variable (href : Spells rd (.ref Rule.expression) Alternatives.Spelled)
include href

theorem spells_nested {opening closing : Bytes} {c d : Char} (hc : c ∈ marks)
    (hopening : opening = Utf8.encode c) (hd : d ∈ marks) (hclosing : closing = Utf8.encode d) :
    Spells rd (nested opening closing) fun body ls =>
      ∃ inside, Alternatives.Spelled body inside ∧ ls = .mark c :: inside ++ [.mark d] := by
  intro s body u h
  obtain ⟨_, m, hm, hend⟩ := Backtrack.Reader.reads_skipRight.mp h
  obtain ⟨_, w, hstart, hbody⟩ := Backtrack.Reader.reads_skipLeft.mp hm
  obtain ⟨inside, hinside, hlaid⟩ := href ((Backtrack.Reader.reads_expect _).mp hbody)
  have hstart := laid_token hc hopening hstart
  have hend := laid_required hd hclosing hend
  exact ⟨_, ⟨inside, hinside, rfl⟩, (hstart.append hlaid).append hend⟩

theorem spells_term : Spells rd term Factor.Spelled := by
  intro s f u h
  rcases Backtrack.Reader.reads_choice_cons.mp h with h | ⟨_, h⟩
  · obtain ⟨n, hn, rfl⟩ := Backtrack.Reader.reads_map.mp h
    obtain ⟨_, ⟨hname, rfl⟩, hlaid⟩ := spells_name hn
    exact ⟨_, .name hname, hlaid⟩
  rcases Backtrack.Reader.reads_choice_cons.mp h with h | ⟨_, h⟩
  · exact spells_literal h
  rcases Backtrack.Reader.reads_choice_cons.mp h with h | ⟨_, h⟩
  · obtain ⟨body, hbody, rfl⟩ := Backtrack.Reader.reads_map.mp h
    obtain ⟨_, ⟨inside, hinside, rfl⟩, hlaid⟩ :=
      spells_nested (c := '(') (d := ')') href (by decide) rfl (by decide) rfl hbody
    exact ⟨_, .group hinside, hlaid⟩
  rcases Backtrack.Reader.reads_choice_cons.mp h with h | ⟨_, h⟩
  · obtain ⟨body, hbody, rfl⟩ := Backtrack.Reader.reads_map.mp h
    obtain ⟨_, ⟨inside, hinside, rfl⟩, hlaid⟩ :=
      spells_nested (c := '[') (d := ']') href (by decide) rfl (by decide) rfl hbody
    exact ⟨_, .option hinside, hlaid⟩
  rcases Backtrack.Reader.reads_choice_cons.mp h with h | ⟨_, h⟩
  · obtain ⟨body, hbody, rfl⟩ := Backtrack.Reader.reads_map.mp h
    obtain ⟨_, ⟨inside, hinside, rfl⟩, hlaid⟩ :=
      spells_nested (c := '\x7b') (d := '\x7d') href (by decide) rfl (by decide) rfl hbody
    exact ⟨_, .repetition hinside, hlaid⟩
  · exact absurd h Backtrack.Reader.not_reads_choice_nil

/-- Further terms go on any sequence. -/
theorem sequence_of_chain {rest : List Factor} (h : rd.Chain (Term.named "term" term) s rest u) :
    ∃ tail, Laid tail s u ∧ ∀ f ls, f.Spelled ls →
      SequenceOf Factor.Spelled (f :: rest) (ls ++ tail) := by
  induction h with
  | stop =>
    refine ⟨[], .nil _, fun f ls hf => ?_⟩
    rw [List.append_nil]
    exact .last hf
  | next h _ _ ih =>
    obtain ⟨ls', hls', hlaid⟩ := spells_term href (Backtrack.Reader.reads_named.mp h)
    obtain ⟨tail, htail, hrest⟩ := ih
    exact ⟨ls' ++ tail, hlaid.append htail, fun f ls hf => .next hf (hrest _ _ hls')⟩

theorem spells_sequence :
    Spells rd (Term.named "term" term).many1 (SequenceOf Factor.Spelled) := by
  intro s fs u h
  obtain ⟨f, rest, m, rfl, hf, hchain⟩ := Backtrack.Reader.reads_many1.mp h
  obtain ⟨ls, hls, hlaid⟩ := spells_term href (Backtrack.Reader.reads_named.mp hf)
  obtain ⟨tail, htail, hrest⟩ := sequence_of_chain href hchain
  exact ⟨ls ++ tail, hrest f ls hls, hlaid.append htail⟩

/-- Further sequences go on any alternatives. -/
theorem alternatives_of_chain {rest : Alternatives}
    (h : rd.Chain ((token "|").skipLeft (Term.named "term" term).many1) s rest u) :
    ∃ tail, Laid tail s u ∧ ∀ fs ls, SequenceOf Factor.Spelled fs ls →
      Alternatives.Spelled (fs :: rest) (ls ++ tail) := by
  induction h with
  | stop =>
    refine ⟨[], .nil _, fun fs ls hfs => ?_⟩
    rw [List.append_nil]
    exact .last hfs
  | next h _ _ ih =>
    obtain ⟨_, w, hbar, hsequence⟩ := Backtrack.Reader.reads_skipLeft.mp h
    obtain ⟨ls', hls', hlaid⟩ := spells_sequence href hsequence
    obtain ⟨tail, htail, hrest⟩ := ih
    have hbar := laid_token (c := '|') (by decide) rfl hbar
    exact ⟨_, (hbar.append hlaid).append htail, fun fs ls hfs => .next hfs (hrest _ _ hls')⟩

/-- A term is spelled with one lexeme at least. -/
theorem not_reads_term_self {f : Factor} : ¬ rd.Reads (.named "term" term) s f s := by
  intro h
  obtain ⟨ls, hls, hlaid⟩ := spells_term href (Backtrack.Reader.reads_named.mp h)
  obtain ⟨l, rest, rfl, _⟩ := hls.exists_cons
  exact Nat.lt_irrefl _ hlaid.length_lt

theorem rejects_of_sequence {fs : List Factor}
    (h : rd.Reads (Term.named "term" term).many1 s fs u) : rd.Rejects (.named "term" term) u := by
  obtain ⟨_, _, _, _, _, hchain⟩ := Backtrack.Reader.reads_many1.mp h
  exact hchain.rejects fun _ _ => not_reads_term_self href

theorem rejects_of_alternatives {rest : Alternatives} (hs : rd.Rejects (.named "term" term) s)
    (h : rd.Chain ((token "|").skipLeft (Term.named "term" term).many1) s rest u) :
    rd.Rejects (.named "term" term) u := by
  induction h with
  | stop => exact hs
  | next hnext _ _ ih =>
    obtain ⟨_, _, _, hsequence⟩ := Backtrack.Reader.reads_skipLeft.mp hnext
    exact ih (rejects_of_sequence href hsequence)

/-- Behind an expression no term stands, so no further expression does. -/
theorem not_reads_expression {e e' : Alternatives} {v : Bytes} (h : rd.Reads expression s e u) :
    ¬ rd.Reads expression u e' v := by
  obtain ⟨⟨fs, rest⟩, hpair, _⟩ := Backtrack.Reader.reads_map.mp h
  obtain ⟨m, hfs, hrest⟩ := Backtrack.Reader.reads_and.mp hpair
  have hu := rejects_of_alternatives href (rejects_of_sequence href hfs)
    (Backtrack.Reader.reads_many0.mp hrest).2
  intro h'
  obtain ⟨_, hpair', _⟩ := Backtrack.Reader.reads_map.mp h'
  obtain ⟨_, hfs', _⟩ := Backtrack.Reader.reads_and.mp hpair'
  obtain ⟨_, _, _, _, hterm, _⟩ := Backtrack.Reader.reads_many1.mp hfs'
  exact hu.not_reads hterm

theorem spells_expression : Spells rd expression Alternatives.Spelled := by
  intro s e u h
  obtain ⟨⟨fs, rest⟩, hpair, rfl⟩ := Backtrack.Reader.reads_map.mp h
  obtain ⟨m, hfs, hrest⟩ := Backtrack.Reader.reads_and.mp hpair
  obtain ⟨ls, hls, hlaid⟩ := spells_sequence href hfs
  obtain ⟨tail, htail, hall⟩ :=
    alternatives_of_chain href (Backtrack.Reader.reads_many0.mp hrest).2
  exact ⟨ls ++ tail, hall fs ls hls, hlaid.append htail⟩

omit href in
theorem spells_ref (input : Input) (depth : Nat) :
    Spells (definitions.reader depth input) (.ref Rule.expression) Alternatives.Spelled := by
  induction depth with
  | zero => exact fun _ _ _ h => absurd h Definitions.not_reads_ref
  | succ depth ih => exact fun _ _ _ h => spells_expression ih ((Definitions.reads_ref rfl).mp h)

omit href in
theorem not_reads_ref_twice {input : Input} {depth : Nat} {e e' : Alternatives} {v : Bytes}
    (h : (definitions.reader depth input).Reads (.ref Rule.expression) s e u) :
    ¬ (definitions.reader depth input).Reads (.ref Rule.expression) u e' v := by
  cases depth with
  | zero => exact absurd h Definitions.not_reads_ref
  | succ depth =>
    intro h'
    have hfirst := (Definitions.reads_ref rfl).mp h
    exact not_reads_expression (spells_ref input depth) hfirst ((Definitions.reads_ref rfl).mp h')

theorem spells_production
    (honce : ∀ {s e u e' v}, rd.Reads (.ref Rule.expression) s e u →
      ¬ rd.Reads (.ref Rule.expression) u e' v) :
    Spells rd production Production.Spelled := by
  intro s p u h
  obtain ⟨⟨n, body⟩, hpair, rfl⟩ := Backtrack.Reader.reads_map.mp h
  obtain ⟨m, hstart, hend⟩ := Backtrack.Reader.reads_and.mp hpair
  obtain ⟨_, w, hn, heq⟩ := Backtrack.Reader.reads_skipRight.mp hstart
  obtain ⟨_, ⟨hname, rfl⟩, hn⟩ := spells_name hn
  have heq := laid_required (c := '=') (by decide) rfl heq
  obtain ⟨_, x, hbody, hpoint⟩ := Backtrack.Reader.reads_skipRight.mp hend
  have hpoint := laid_required (c := '.') (by decide) rfl hpoint
  cases (Backtrack.Reader.reads_many0.mp hbody).2 with
  | stop => exact ⟨_, .empty hname, hn.append (heq.append hpoint)⟩
  | next he _ hrest =>
    obtain ⟨ls, hls, hlaid⟩ := href he
    cases hrest with
    | stop => exact ⟨_, .body hname hls, hn.append (heq.append (hlaid.append hpoint))⟩
    | next he' => exact absurd he' (honce he)

theorem spells_productions
    (honce : ∀ {s e u e' v}, rd.Reads (.ref Rule.expression) s e u →
      ¬ rd.Reads (.ref Rule.expression) u e' v)
    {d : Document} (h : rd.Chain (Term.named "production" production) s d u) :
    ∃ ls, d.Spelled ls ∧ Laid ls s u := by
  induction h with
  | stop => exact ⟨[], .nil, .nil _⟩
  | next h _ _ ih =>
    obtain ⟨ls, hls, hlaid⟩ := spells_production href honce (Backtrack.Reader.reads_named.mp h)
    obtain ⟨ls', hls', hlaid'⟩ := ih
    exact ⟨ls ++ ls', .cons hls hls', hlaid.append hlaid'⟩

omit href in
/-- The tree that a text is read as is spelled in the text. -/
theorem spelled_of_parse {filename text : Bytes} {d : Document}
    (h : (parse filename text).result = .ok (.ok d)) :
    ∃ ls, d.Spelled ls ∧ Laid ls (skip text) [] := by
  unfold parse parser at h
  obtain ⟨_, m, hm, hend⟩ :=
    Backtrack.Reader.reads_skipRight.mp (Definitions.evaluate_named_eq_ok.mp h)
  obtain ⟨_, rfl, _⟩ := Backtrack.Reader.reads_atEnd.mp ((Backtrack.Reader.reads_expect _).mp hend)
  obtain ⟨_, w, hspaces, hmany⟩ := Backtrack.Reader.reads_skipLeft.mp hm
  obtain rfl := Backtrack.Reader.reads_spaces hspaces
  obtain ⟨_, hchain⟩ := Backtrack.Reader.reads_many0.mp hmany
  exact spells_productions (spells_ref _ _) not_reads_ref_twice hchain

end Backtrack.Ebnf.Tree
