import Backtrack.Proofs.Ebnf.Literals

/-!
# Trees are read wherever they are spelled

Where the lexemes of a tree are laid out in a text and nothing stands behind them, the tree is read
from the text. The first byte of a lexeme decides between the alternatives of a term, and the one
behind a term whether it goes on: to a range, to a further term or to a further alternative. The
induction is on how much text is left, which an opening bracket makes shorter, and the depth to
which references are followed exceeds that.
-/

namespace Backtrack.Ebnf

open Text

variable {s m u : Bytes} {l : Lexeme} {ls ls' : List Lexeme}

theorem exists_laid_append (ls : List Lexeme) (h : Laid (ls ++ ls') s u) :
    ∃ m, Laid ls s m ∧ Laid ls' m u := by
  induction ls generalizing s with
  | nil => exact ⟨s, .nil s, h⟩
  | cons l ls ih =>
    cases h with
    | cons hl hs hend hrest =>
      obtain ⟨m, hm, hu⟩ := ih hrest
      exact ⟨m, .cons hl hs hend hm, hu⟩

theorem Laid.headNot {kind : UInt8 → Bool} (h : Laid (l :: ls) s u) (hl : HeadNot kind l.text) :
    HeadNot kind (skip s) := by
  cases h with
  | cons hproper hs =>
    obtain ⟨b, rest, hcons⟩ := List.exists_cons_of_ne_nil hproper.ne_nil
    rw [hcons] at hl hs
    rw [hs]
    exact headNot_cons.mpr (headNot_cons.mp hl)

theorem exists_of_laid_single (h : Laid [l] s u) : ∃ m, skip s = l.text ++ m ∧ u = skip m := by
  cases h with
  | cons _ hs _ hrest =>
    cases hrest
    exact ⟨_, hs, rfl⟩

namespace Tree

variable {rd : Backtrack.Reader Rule.type}

def startsRange (b : UInt8) : Bool := b = 226

def goesOnSequence (b : UInt8) : Bool := startsTerm b || startsRange b

def goesOn (b : UInt8) : Bool := goesOnSequence b || b = 124

theorem startsRange_of_nameStart (b : UInt8) (h : isNameStart b = true) :
    startsRange b = false := by
  have hall : ∀ b : UInt8, isNameStart b = true → startsRange b = false :=
    Bytes.forall_byte (by decide +kernel)
  exact hall b h

/-- A term does not start like the ellipsis. -/
theorem headNot_range_of_starter (hl : l.Proper) (h : l.kind ∈ starters) :
    HeadNot startsRange l.text := by
  cases hl with
  | name hn =>
    cases hn with
    | mk hb => exact headNot_cons.mpr (startsRange_of_nameStart _ hb)
  | quoted hl => cases hl <;> exact headNot_cons.mpr (by decide)
  | @mark c =>
    simp only [starters, Lexeme.mark, List.mem_cons, Kind.mark.injEq, List.not_mem_nil, or_false,
      reduceCtorEq, false_or] at h
    rcases h with rfl | rfl | rfl <;> exact headNot_cons.mpr (by decide)

theorem headNot_range (h : Laid (l :: ls) s u) (hl : l.kind ∈ starters) :
    HeadNot startsRange (skip s) := by
  have hproper : l.Proper := by
    cases h with
    | cons hproper => exact hproper
  exact h.headNot (headNot_range_of_starter hproper hl)

theorem Factor.Spelled.ne_of_laid {f : Factor} (h : f.Spelled ls) (hlaid : Laid ls s u) :
    u ≠ s := by
  obtain ⟨l, tail, rfl, _⟩ := h.exists_cons
  rintro rfl
  exact Nat.lt_irrefl _ hlaid.length_lt

/-- Where little text is left, expressions are read whose text nothing goes on. -/
def ReadsWithin (rd : Backtrack.Reader Rule.type) (n : Nat) : Prop :=
  ∀ ⦃body : Alternatives⦄ ⦃ls s u⦄, body.Spelled ls → Laid ls s u → s <:+ rd.bytes →
    s.length ≤ n → HeadNot goesOn (skip u) → rd.Reads (.ref Rule.expression) s body u

theorem reads_required {c : Char} (hlaid : Laid [.mark c] s u) (hs : s <:+ rd.bytes) :
    rd.Reads (required (Utf8.encode c)) s (Utf8.encode c) u := by
  obtain ⟨_, hskip, rfl⟩ := exists_of_laid_single hlaid
  exact (Backtrack.Reader.reads_expect _).mpr (reads_token hs hskip)

theorem rejects_literal (hs : s <:+ rd.bytes) (h : HeadNot isQuote (skip s)) :
    rd.Rejects literal s := by
  apply Backtrack.Reader.rejects_map
  apply Backtrack.Reader.rejects_and
  exact rejects_text hs h

theorem reads_literal_text {value : Bytes} (h : Quoted value l) (hlaid : Laid [l] s u)
    (hs : s <:+ rd.bytes) (hu : HeadNot startsRange (skip u)) :
    rd.Reads literal s (.literal value none) u := by
  obtain ⟨m, hskip, rfl⟩ := exists_of_laid_single hlaid
  have htext := reads_text h hs hskip
  have hrange : rd.Rejects (token "…") (skip m) := rejects_token (b := 226) rfl htext.finish hu
  have hnone : rd.Reads (Term.optional none
      (((token "…").skipLeft (text.expect "token")).map some)) (skip m) none (skip m) := by
    apply Backtrack.Reader.reads_optional.mpr (.inr ⟨?_, rfl, rfl⟩)
    exact Backtrack.Reader.rejects_map (Backtrack.Reader.rejects_skipLeft hrange)
  exact Backtrack.Reader.reads_map.mpr
    ⟨(value, none), Backtrack.Reader.reads_and.mpr ⟨_, htext, hnone⟩, rfl⟩

theorem reads_literal_range {first last : Bytes} {l' : Lexeme} (h : Quoted first l)
    (h' : Quoted last l') (hlaid : Laid [l, .mark '…', l'] s u) (hs : s <:+ rd.bytes) :
    rd.Reads literal s (.literal first (some last)) u := by
  obtain ⟨m, hfirst, hlaid⟩ := exists_laid_append [l] hlaid
  obtain ⟨w, hdots, hlast⟩ := exists_laid_append [.mark '…'] hlaid
  obtain ⟨_, hskip, rfl⟩ := exists_of_laid_single hfirst
  obtain ⟨_, hskip', rfl⟩ := exists_of_laid_single hdots
  obtain ⟨_, hskip'', rfl⟩ := exists_of_laid_single hlast
  have hfirst := reads_text h hs hskip
  have hdots : rd.Reads (token "…") _ _ _ := reads_token hfirst.finish hskip'
  have hlast := reads_text h' hdots.finish hskip''
  have hrange := Backtrack.Reader.reads_skipLeft.mpr
    ⟨_, _, hdots, (Backtrack.Reader.reads_expect "token").mpr hlast⟩
  have hsome := (Backtrack.Reader.reads_map (f := some) (b := some last)).mpr ⟨_, hrange, rfl⟩
  exact Backtrack.Reader.reads_map.mpr
    ⟨(first, some last), Backtrack.Reader.reads_and.mpr
      ⟨_, hfirst, Backtrack.Reader.reads_optional.mpr (.inl hsome)⟩, rfl⟩

/-- Where a literal is laid out, a term that is one is read. -/
theorem reads_term_of_literal {f : Factor} {value : Bytes} (h : Quoted value l)
    (hlaid : Laid (l :: ls) s u) (hf : rd.Reads literal s f u) : rd.Reads term s f u := by
  have hname : HeadNot isNameStart l.text := by cases h <;> exact headNot_cons.mpr (by decide)
  apply Backtrack.Reader.reads_choice_tail
  · exact Backtrack.Reader.rejects_map (rejects_name hf.start (hlaid.headNot hname))
  · exact Backtrack.Reader.reads_choice_head hf

/-- Whether a byte starts a name or a literal, which stand first among the terms. -/
def startsAtom (b : UInt8) : Bool := isNameStart b || isQuote b

theorem reads_behind_literal {f : Factor} {c : Char} {ps : List (Grammar Factor)}
    (hlaid : Laid (.mark c :: ls) s u) (hs : s <:+ rd.bytes)
    (hc : HeadNot startsAtom (Utf8.encode c)) (hf : rd.Reads (.choice ps) s f u) :
    rd.Reads (.choice (name.map .name :: literal :: ps)) s f u := by
  have hhead : HeadNot startsAtom (skip s) := hlaid.headNot hc
  apply Backtrack.Reader.reads_choice_tail
  · apply Backtrack.Reader.rejects_map
    exact rejects_name hs (headNot_mono hhead fun b hb => (Bool.or_eq_false_iff.mp hb).1)
  apply Backtrack.Reader.reads_choice_tail
  · exact rejects_literal hs (headNot_mono hhead fun b hb => (Bool.or_eq_false_iff.mp hb).2)
  · exact hf

section Terms

variable {n : Nat} (hread : ReadsWithin rd n)
include hread

theorem reads_nested {opening closing : Bytes} {c d : Char} {body : Alternatives}
    {inside : List Lexeme} (hopening : opening = Utf8.encode c) (hclosing : closing = Utf8.encode d)
    (hd : HeadNot goesOn (Utf8.encode d)) (h : body.Spelled inside)
    (hlaid : Laid (.mark c :: inside ++ [.mark d]) s u) (hs : s <:+ rd.bytes)
    (hn : s.length ≤ n + 1) : rd.Reads (nested opening closing) s body u := by
  subst hopening hclosing
  obtain ⟨m, hstart, hend⟩ := exists_laid_append _ hlaid
  obtain ⟨w, hopen, hinside⟩ := exists_laid_append [.mark c] hstart
  have hshorter := hopen.length_lt
  obtain ⟨_, hskip, rfl⟩ := exists_of_laid_single hopen
  have hopen : rd.Reads (token (Utf8.encode c)) _ _ _ := reads_token hs hskip
  have hbody := hread h hinside hopen.finish (by omega) (hend.headNot hd)
  have hclose := reads_required hend hbody.finish
  exact Backtrack.Reader.reads_skipRight.mpr ⟨_, _, Backtrack.Reader.reads_skipLeft.mpr
    ⟨_, _, hopen, (Backtrack.Reader.reads_expect "expression").mpr hbody⟩, hclose⟩

/-- A term is read where nothing makes a range of it. -/
theorem reads_term {f : Factor} (h : f.Spelled ls) (hlaid : Laid ls s u) (hs : s <:+ rd.bytes)
    (hn : s.length ≤ n + 1) (hu : HeadNot startsRange (skip u)) :
    rd.Reads (.named "term" term) s f u := by
  apply Backtrack.Reader.reads_named.mpr
  cases h with
  | name hn =>
    cases hlaid with
    | cons _ hskip hend hrest =>
      cases hrest
      apply Backtrack.Reader.reads_choice_head
      exact Backtrack.Reader.reads_map.mpr ⟨_, reads_name hn hs hskip (hend rfl), rfl⟩
  | text h => exact reads_term_of_literal h hlaid (reads_literal_text h hlaid hs hu)
  | range h h' => exact reads_term_of_literal h hlaid (reads_literal_range h h' hlaid hs)
  | group h =>
    have hbody : rd.Reads (nested "(" ")") s _ u :=
      reads_nested hread rfl rfl (headNot_cons.mpr (by decide)) h hlaid hs hn
    apply reads_behind_literal hlaid hs (headNot_cons.mpr (by decide))
    exact Backtrack.Reader.reads_choice_head (Backtrack.Reader.reads_map.mpr ⟨_, hbody, rfl⟩)
  | option h =>
    have hbody : rd.Reads (nested "[" "]") s _ u :=
      reads_nested hread rfl rfl (headNot_cons.mpr (by decide)) h hlaid hs hn
    have hgroup : HeadNot (· = 40) (skip s) := hlaid.headNot (headNot_cons.mpr (by decide))
    apply reads_behind_literal hlaid hs (headNot_cons.mpr (by decide))
    apply Backtrack.Reader.reads_choice_tail (rejects_nested rfl hs hgroup)
    exact Backtrack.Reader.reads_choice_head (Backtrack.Reader.reads_map.mpr ⟨_, hbody, rfl⟩)
  | repetition h =>
    have hbody : rd.Reads (nested "\x7b" "\x7d") s _ u :=
      reads_nested hread rfl rfl (headNot_cons.mpr (by decide)) h hlaid hs hn
    have hgroup : HeadNot (· = 40) (skip s) := hlaid.headNot (headNot_cons.mpr (by decide))
    have hoption : HeadNot (· = 91) (skip s) := hlaid.headNot (headNot_cons.mpr (by decide))
    apply reads_behind_literal hlaid hs (headNot_cons.mpr (by decide))
    apply Backtrack.Reader.reads_choice_tail (rejects_nested rfl hs hgroup)
    apply Backtrack.Reader.reads_choice_tail (rejects_nested rfl hs hoption)
    exact Backtrack.Reader.reads_choice_head (Backtrack.Reader.reads_map.mpr ⟨_, hbody, rfl⟩)

/-- The terms of a sequence are read one after another, each of which takes something. -/
theorem reads_terms {fs : List Factor} (h : SequenceOf Factor.Spelled fs ls) (hlaid : Laid ls s u)
    (hs : s <:+ rd.bytes) (hn : s.length ≤ n + 1) (hu : HeadNot goesOnSequence (skip u)) :
    ∃ f fs' m, fs = f :: fs' ∧ rd.Reads (.named "term" term) s f m ∧ m ≠ s ∧
      rd.Chain (.named "term" term) m fs' u := by
  have hrange : HeadNot startsRange (skip u) :=
    headNot_mono hu fun b hb => (Bool.or_eq_false_iff.mp hb).2
  induction h generalizing s with
  | @last f ls hf =>
    have hterm := reads_term hread hf hlaid hs hn hrange
    have hstop : rd.Rejects (.named "term" term) u := by
      apply Backtrack.Reader.rejects_named
      apply rejects_term hterm.finish
      exact headNot_mono hu fun b hb => (Bool.or_eq_false_iff.mp hb).1
    exact ⟨f, [], u, rfl, hterm, hf.ne_of_laid hlaid, .stop (.inl hstop)⟩
  | @next f fs ls ls' hf hfs ih =>
    obtain ⟨m, hfirst, hrest⟩ := exists_laid_append _ hlaid
    have hm : HeadNot startsRange (skip m) := by
      obtain ⟨l, tail, rfl, hl⟩ := hfs.exists_cons
      exact headNot_range hrest hl
    have hterm := reads_term hread hf hfirst hs hn hm
    have hle := hfirst.length_le
    obtain ⟨f', fs', w, rfl, hterm', hne, hchain⟩ := ih hrest hterm.finish (by omega)
    exact ⟨f, f' :: fs', m, rfl, hterm, hf.ne_of_laid hfirst, .next hterm' hne hchain⟩

theorem reads_sequence {fs : List Factor} (h : SequenceOf Factor.Spelled fs ls)
    (hlaid : Laid ls s u) (hs : s <:+ rd.bytes) (hn : s.length ≤ n + 1)
    (hu : HeadNot goesOnSequence (skip u)) :
    rd.Reads (Term.named "term" term).many1 s fs u := by
  obtain ⟨f, fs', m, rfl, hterm, _, hchain⟩ := reads_terms hread h hlaid hs hn hu
  exact Backtrack.Reader.reads_many1.mpr ⟨f, fs', m, rfl, hterm, hchain⟩

/-- Behind the first alternative each further one is read with the bar in front of it. -/
theorem reads_alternatives {body : Alternatives} (h : body.Spelled ls) (hlaid : Laid ls s u)
    (hs : s <:+ rd.bytes) (hn : s.length ≤ n + 1) (hu : HeadNot goesOn (skip u)) :
    ∃ fs rest m, body = fs :: rest ∧ rd.Reads (Term.named "term" term).many1 s fs m ∧
      rd.Chain ((token "|").skipLeft (Term.named "term" term).many1) m rest u := by
  induction h generalizing s with
  | @last fs ls hfs =>
    have hsequence := reads_sequence hread hfs hlaid hs hn
      (headNot_mono hu fun b hb => (Bool.or_eq_false_iff.mp hb).1)
    have hbar : rd.Rejects (token "|") u := by
      apply rejects_token (b := 124) rfl hsequence.finish
      exact headNot_mono hu fun b hb => (Bool.or_eq_false_iff.mp hb).2
    exact ⟨fs, [], u, rfl, hsequence, .stop (.inl (Backtrack.Reader.rejects_skipLeft hbar))⟩
  | @next fs body ls ls' hfs hbody ih =>
    obtain ⟨m, hfirst, hlaid⟩ := exists_laid_append _ hlaid
    obtain ⟨w, hbar, hrest⟩ := exists_laid_append [.mark '|'] hlaid
    have hm : HeadNot goesOnSequence (skip m) := hbar.headNot (headNot_cons.mpr (by decide))
    have hsequence := reads_sequence hread hfs hfirst hs hn hm
    have hle := hfirst.length_le
    have hlt := hbar.length_lt
    obtain ⟨_, hskip, rfl⟩ := exists_of_laid_single hbar
    have hbar : rd.Reads (token "|") _ _ _ := reads_token hsequence.finish hskip
    obtain ⟨fs', rest, x, rfl, hsequence', hchain⟩ := ih hrest hbar.finish (by omega)
    have hnext := Backtrack.Reader.reads_skipLeft.mpr ⟨_, _, hbar, hsequence'⟩
    refine ⟨fs, fs' :: rest, m, rfl, hsequence, .next hnext ?_ hchain⟩
    rintro rfl
    have hle' := hsequence'.rest.length_le
    omega

theorem reads_expression {body : Alternatives} (h : body.Spelled ls) (hlaid : Laid ls s u)
    (hs : s <:+ rd.bytes) (hn : s.length ≤ n + 1) (hu : HeadNot goesOn (skip u)) :
    rd.Reads expression s body u := by
  obtain ⟨fs, rest, m, rfl, hsequence, hchain⟩ := reads_alternatives hread h hlaid hs hn hu
  have hmany := Backtrack.Reader.reads_many0.mpr ⟨hsequence.finish, hchain⟩
  exact Backtrack.Reader.reads_map.mpr
    ⟨(fs, rest), Backtrack.Reader.reads_and.mpr ⟨m, hsequence, hmany⟩, rfl⟩

end Terms

theorem readsWithin_reader (input : Input) (depth : Nat) :
    ReadsWithin (definitions.reader depth input) depth := by
  induction depth with
  | zero =>
    intro body ls s u h hlaid _ hn _
    obtain ⟨l, tail, rfl, _⟩ := Alternatives.Spelled.exists_cons h
    have hlt := hlaid.length_lt
    omega
  | succ depth ih =>
    intro body ls s u h hlaid hs hn hu
    exact (Definitions.reads_ref rfl).mpr (reads_expression ih h hlaid hs hn hu)

theorem reads_declared {n : Bytes} (hn : Name n)
    (hlaid : Laid (.name n :: .mark '=' :: ls) s u) (hs : s <:+ rd.bytes) :
    ∃ m, rd.Reads (name.skipRight (required "=")) s n m ∧ Laid ls m u := by
  cases hlaid with
  | cons _ hskip hend hrest =>
    obtain ⟨m, hequals, hrest⟩ := exists_laid_append [.mark '='] hrest
    have hname := reads_name hn hs hskip (hend rfl)
    have hequals := reads_required hequals hname.finish
    exact ⟨_, Backtrack.Reader.reads_skipRight.mpr ⟨_, _, hname, hequals⟩, hrest⟩

section Documents

variable {n : Nat} (hread : ReadsWithin rd n)
  (hstop : ∀ {s}, s <:+ rd.bytes → HeadNot startsTerm (skip s) →
    rd.Rejects (.ref Rule.expression) s)
include hread hstop

theorem reads_production {p : Production} (h : p.Spelled ls) (hlaid : Laid ls s u)
    (hs : s <:+ rd.bytes) (hn : s.length ≤ n) : rd.Reads production s p u := by
  cases h with
  | @empty name hname =>
    obtain ⟨m, hstart, hend⟩ := reads_declared hname hlaid hs
    have hpoint := reads_required hend hstart.finish
    have hnone : rd.Rejects (.ref Rule.expression) m :=
      hstop hstart.finish (hend.headNot (headNot_cons.mpr (by decide)))
    have hbody := Backtrack.Reader.reads_many0.mpr ⟨hstart.finish, .stop (.inl hnone)⟩
    exact Backtrack.Reader.reads_map.mpr ⟨(name, []), Backtrack.Reader.reads_and.mpr
      ⟨_, hstart, Backtrack.Reader.reads_skipRight.mpr ⟨_, _, hbody, hpoint⟩⟩, rfl⟩
  | @body name e inside hname he =>
    obtain ⟨m, hstart, hrest⟩ := reads_declared hname hlaid hs
    obtain ⟨w, hinside, hend⟩ := exists_laid_append _ hrest
    have hle := hstart.rest.length_le
    have hexpression := hread he hinside hstart.finish (by omega)
      (hend.headNot (headNot_cons.mpr (by decide)))
    have hpoint := reads_required hend hexpression.finish
    have hnone : rd.Rejects (.ref Rule.expression) w :=
      hstop hexpression.finish (hend.headNot (headNot_cons.mpr (by decide)))
    have hne : w ≠ m := by
      obtain ⟨l, tail, rfl, _⟩ := Alternatives.Spelled.exists_cons he
      rintro rfl
      exact Nat.lt_irrefl _ hinside.length_lt
    have hbody := Backtrack.Reader.reads_many0.mpr
      ⟨hstart.finish, .next hexpression hne (.stop (.inl hnone))⟩
    exact Backtrack.Reader.reads_map.mpr ⟨(name, [e]), Backtrack.Reader.reads_and.mpr
      ⟨_, hstart, Backtrack.Reader.reads_skipRight.mpr ⟨_, _, hbody, hpoint⟩⟩, rfl⟩

theorem chain_productions {d : Document} (h : d.Spelled ls) (hlaid : Laid ls s [])
    (hs : s <:+ rd.bytes) (hn : s.length ≤ n) :
    rd.Chain (Term.named "production" production) s d [] := by
  induction h generalizing s with
  | nil =>
    cases hlaid
    apply Backtrack.Reader.Chain.stop (.inl ?_)
    apply Backtrack.Reader.rejects_named
    apply Backtrack.Reader.rejects_map
    apply Backtrack.Reader.rejects_and
    apply Backtrack.Reader.rejects_skipRight
    exact rejects_name hs headNot_nil
  | @cons p d ls ls' hp hd ih =>
    obtain ⟨m, hfirst, hrest⟩ := exists_laid_append _ hlaid
    have hproduction := reads_production hread hstop hp hfirst hs hn
    have hlt : m.length < s.length := by cases hp <;> exact hfirst.length_lt
    have hne : m ≠ s := by
      rintro rfl
      exact Nat.lt_irrefl _ hlt
    exact .next (Backtrack.Reader.reads_named.mpr hproduction) hne
      (ih hrest hproduction.finish (by omega))

theorem reads_document {d : Document} (h : d.Spelled ls) (hlaid : Laid ls (skip s) [])
    (hs : s <:+ rd.bytes) (hn : s.length ≤ n) : rd.Reads document s d [] := by
  obtain ⟨_, hspaces⟩ := Backtrack.Reader.exists_reads_spaces hs
  have hle := (skip_suffix s).length_le
  have hchain := chain_productions hread hstop h hlaid hspaces.finish (by omega)
  have hmany := Backtrack.Reader.reads_many0.mpr ⟨hspaces.finish, hchain⟩
  have hend : rd.Reads (Term.atEnd.expect "production") [] () [] :=
    (Backtrack.Reader.reads_expect _).mpr
      (Backtrack.Reader.reads_atEnd.mpr ⟨List.nil_suffix, rfl, rfl⟩)
  exact Backtrack.Reader.reads_skipRight.mpr
    ⟨_, _, Backtrack.Reader.reads_skipLeft.mpr ⟨_, _, hspaces, hmany⟩, hend⟩

end Documents

/-- A text that spells a tree is read as this tree. -/
theorem parse_of_spelled {filename text : Bytes} {d : Document} (h : d.Spelled ls)
    (hlaid : Laid ls (skip text) []) : (parse filename text).result = .ok (.ok d) := by
  have hlength : text.length = (Input.ofBytes filename text).size := rfl
  obtain ⟨depth, hdepth, hle⟩ : ∃ depth,
      Definitions.depth 1 (Input.ofBytes filename text) = depth + 1 ∧ text.length ≤ depth + 1 := by
    refine ⟨2 * (Input.ofBytes filename text).size + 3, ?_, by omega⟩
    unfold Definitions.depth
    omega
  unfold parse parser
  apply Definitions.evaluate_named_eq_ok.mpr
  rw [hdepth]
  apply reads_document (readsWithin_reader _ _) ?_ h hlaid List.suffix_rfl hle
  exact fun hs hhead => (Definitions.rejects_ref rfl).mpr (rejects_expression hs hhead)

end Tree

end Backtrack.Ebnf
