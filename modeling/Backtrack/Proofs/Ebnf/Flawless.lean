import Backtrack.Proofs.Ebnf.Translation

/-!
# Texts without flaws

Where a grammar is read and nothing is reported, the lexemes of the text are those of a tree that
names no production twice. The reader never takes a flaw back, so a run without flaws has none at
any step. Each reader then passes over the lexemes of what it should read; the bounds on its steps
and on its depth are not met, because every step takes a lexeme.

This module does NOT say what is read from texts with flaws.
-/

namespace Backtrack.Ebnf

open Text

section Kinds

variable {l : Lexeme} {ls : List Lexeme}

theorem Lexeme.Proper.eq_mark (hl : l.Proper) {c : Char} (h : l.kind = .mark c) : l = .mark c := by
  cases hl with
  | name => cases h
  | quoted hl => cases hl <;> cases h
  | mark =>
    cases h
    rfl

theorem Lexeme.Proper.eq_name (hl : l.Proper) (h : l.kind = .identifier) :
    Name l.text ∧ l = .name l.text := by
  cases hl with
  | name hn => exact ⟨hn, rfl⟩
  | quoted hl => cases hl <;> cases h
  | mark => cases h

theorem Lexeme.Proper.quoted_value (hl : l.Proper) (h : l.kind = .string ∨ l.kind = .raw) :
    ∃ value, Quoted value l := by
  cases hl with
  | name => rcases h with h | h <;> cases h
  | quoted hl => exact ⟨_, hl⟩
  | mark => rcases h with h | h <;> cases h

theorem Lexeme.Proper.kind_ne (hl : l.Proper) : l.kind ≠ .ending := by
  cases hl with
  | name => nofun
  | quoted hl => cases hl <;> nofun
  | mark => nofun

inductive Ended : List Lexeme → Prop where
  | ending : Ended [⟨.ending, []⟩]
  | cons {l : Lexeme} {ls : List Lexeme} (hl : l.Proper) (hrest : Ended ls) : Ended (l :: ls)

theorem Ended.of_kind_ne (h : Ended (l :: ls)) (hl : l.kind ≠ .ending) : l.Proper ∧ Ended ls := by
  cases h with
  | ending => exact absurd rfl hl
  | cons hl hrest => exact ⟨hl, hrest⟩

theorem Ended.of_kind_eq (h : Ended (l :: ls)) (hl : l.kind = .ending) :
    l :: ls = [⟨.ending, []⟩] := by
  cases h with
  | ending => rfl
  | cons hproper => exact absurd hl hproper.kind_ne

theorem Ended.of_cons (h : Ended (l :: ls)) (hls : ls ≠ []) : Ended ls := by
  cases h with
  | ending => exact absurd rfl hls
  | cons _ hrest => exact hrest

theorem Ended.length_pos (h : Ended ls) : 0 < ls.length := by
  cases h <;> exact Nat.succ_pos _

theorem ended_of_proper (h : ∀ l ∈ ls, l.Proper) : Ended (ls ++ [⟨.ending, []⟩]) := by
  induction ls with
  | nil => exact .ending
  | cons l ls ih =>
    obtain ⟨hl, h⟩ := List.forall_mem_cons.mp h
    exact .cons hl (ih h)

end Kinds

namespace Reader

variable {α β : Type} {p : Reader α} {good : α → List Lexeme → List Lexeme → Prop}

/-- Where a reader ends without flaws, there were none before, and its answer is as it should be in
view of the lexemes before and after. -/
structure Finds (p : Reader α) (good : α → List Lexeme → List Lexeme → Prop) : Prop where
  keeps : ∀ r, (p.run r).2.flaws = [] → r.flaws = []
  finds : ∀ r, Ended r.lexemes → (p.run r).2.flaws = [] →
    Ended (p.run r).2.lexemes ∧ good (p.run r).1 r.lexemes (p.run r).2.lexemes

theorem finds_pure {v : α} (h : ∀ ls, Ended ls → good v ls ls) : Finds (pure v) good where
  keeps _ hr := hr
  finds _ hr _ := ⟨hr, h _ hr⟩

theorem Finds.mono {good' : α → List Lexeme → List Lexeme → Prop} (hp : Finds p good)
    (h : ∀ v before after, good v before after → good' v before after) : Finds p good' where
  keeps := hp.keeps
  finds r hr hflaws := by
    obtain ⟨hafter, hgood⟩ := hp.finds r hr hflaws
    exact ⟨hafter, h _ _ _ hgood⟩

section Steps

variable {good' : β → List Lexeme → List Lexeme → Prop}

theorem Finds.bind {f : α → Reader β} (hp : Finds p good)
    (hf : ∀ v, Finds (f v) fun w middle after =>
      ∀ before, good v before middle → good' w before after) : Finds (p >>= f) good' where
  keeps r hr := hp.keeps r ((hf _).keeps _ hr)
  finds r hr hflaws := by
    obtain ⟨hmiddle, hgood⟩ := hp.finds r hr ((hf _).keeps _ hflaws)
    obtain ⟨hafter, hgood'⟩ := (hf _).finds _ hmiddle hflaws
    exact ⟨hafter, hgood' _ hgood⟩

/-- Looking at the current token passes over nothing. -/
theorem finds_current {f : Token → Reader β}
    (hf : ∀ t, Finds (f t) fun w before after =>
      ∀ rest, before = t.lexeme :: rest → good' w before after) :
    Finds (current >>= f) good' where
  keeps r hr := (hf _).keeps r hr
  finds r hr hflaws := by
    obtain ⟨hafter, hgood⟩ := (hf r.current).finds r hr hflaws
    exact ⟨hafter, hgood _ rfl⟩

theorem finds_get {f : Reading → Reader β}
    (hf : ∀ r, Finds (f r) fun w before after => before = r.lexemes → good' w before after) :
    Finds (get >>= f) good' where
  keeps r hr := (hf _).keeps r hr
  finds r hr hflaws := by
    obtain ⟨hafter, hgood⟩ := (hf r).finds r hr hflaws
    exact ⟨hafter, hgood rfl⟩

end Steps

theorem finds_advance : Finds advance fun _ before after =>
    ∀ l rest, before = l :: rest → l.kind ≠ .ending → l.Proper ∧ after = rest where
  keeps r hr := by
    obtain ⟨current, later, flaws⟩ := r
    cases later <;> exact hr
  finds r hr _ := by
    obtain ⟨current, later, flaws⟩ := r
    cases later with
    | nil =>
      refine ⟨hr, fun l rest hcons hkind => ?_⟩
      obtain ⟨rfl, rfl⟩ := List.cons.inj hcons
      have hrest := (hr.of_kind_ne hkind).2
      exact absurd hrest.length_pos (Nat.lt_irrefl 0)
    | cons t ts =>
      refine ⟨hr.of_cons (List.cons_ne_nil _ _), fun l rest hcons hkind => ?_⟩
      obtain ⟨rfl, rfl⟩ := List.cons.inj hcons
      exact ⟨(hr.of_kind_ne hkind).1, rfl⟩

/-- A mark that was looked at is passed over. -/
theorem finds_advance_mark {t : Token} {c : Char} (ht : t.kind = .mark c) :
    Finds advance fun _ before after =>
      ∀ rest, before = t.lexeme :: rest → before = .mark c :: after := by
  apply finds_advance.mono
  intro _ before after hadvance rest hbefore
  have hkind : t.lexeme.kind = .mark c := ht
  have hne : t.lexeme.kind ≠ .ending := by
    rw [hkind]
    nofun
  obtain ⟨hproper, rfl⟩ := hadvance _ _ hbefore hne
  rw [hbefore, hproper.eq_mark hkind]

theorem finds_report (flaw : Flaw) : Finds (report flaw) fun _ _ _ => False where
  keeps _ hr := absurd hr (List.cons_ne_nil _ _)
  finds _ _ hr := absurd hr (List.cons_ne_nil _ _)

theorem finds_reportExpected (what : Bytes) :
    Finds (reportExpected what) fun _ _ _ => False := by
  unfold reportExpected
  apply finds_current
  intro t
  exact (finds_report _).mono fun _ _ _ hfalse => hfalse.elim

theorem finds_expect (kind : Kind) (hkind : kind ≠ .ending) :
    Finds (expect kind) fun _ before after =>
      ∃ l, l.Proper ∧ l.kind = kind ∧ before = l :: after := by
  unfold expect
  apply finds_current
  intro t
  by_cases ht : t.kind = kind
  · rw [if_neg (not_not_intro ht)]
    apply finds_advance.mono
    intro _ before after hadvance rest hbefore
    have hne : t.lexeme.kind ≠ .ending := fun h => hkind (ht.symm.trans h)
    obtain ⟨hproper, rfl⟩ := hadvance _ _ hbefore hne
    exact ⟨_, hproper, ht, hbefore⟩
  · rw [if_pos ht]
    apply (finds_reportExpected _).bind
    intro _
    exact finds_advance.mono fun _ _ _ _ _ hfalse => hfalse.elim

theorem finds_mark {c : Char} :
    Finds (expect (.mark c)) fun _ before after => before = .mark c :: after := by
  apply (finds_expect (.mark c) nofun).mono
  intro _ before after h
  obtain ⟨l, hl, hkind, rfl⟩ := h
  rw [hl.eq_mark hkind]

theorem finds_name :
    Finds name fun v before after => Name v.2 ∧ before = .name v.2 :: after := by
  unfold name
  apply finds_current
  intro t
  apply (finds_expect .identifier nofun).bind
  intro _
  apply finds_pure
  intro after _ before h rest hcurrent
  obtain ⟨l, hl, hkind, rfl⟩ := h
  obtain ⟨rfl, rfl⟩ := List.cons.inj hcurrent
  obtain ⟨hname, hlexeme⟩ := hl.eq_name hkind
  exact ⟨hname, congrArg (· :: after) hlexeme⟩

theorem finds_terminal : Finds terminal fun _ before after =>
    ∃ value l, Quoted value l ∧ before = l :: after := by
  unfold terminal
  apply finds_current
  intro t
  by_cases ht : t.kind = .string ∨ t.kind = .raw
  · rw [if_pos ht]
    apply finds_advance.bind
    intro _
    apply finds_pure
    intro after _ before hadvance rest hbefore
    have hne : t.lexeme.kind ≠ .ending := by
      intro h
      have hkind : t.kind = .ending := h
      simp [hkind] at ht
    obtain ⟨hproper, rfl⟩ := hadvance _ _ hbefore hne
    obtain ⟨value, hvalue⟩ := hproper.quoted_value ht
    exact ⟨value, _, hvalue, hbefore⟩
  · rw [if_neg ht]
    apply (finds_expect .string nofun).bind
    intro _
    apply finds_pure
    intro after _ before h rest hcurrent
    obtain ⟨l, _, hkind, rfl⟩ := h
    obtain ⟨rfl, rfl⟩ := List.cons.inj hcurrent
    exact absurd (.inl hkind) ht

theorem finds_terminalOrRange : Finds terminalOrRange fun _ before after =>
    ∃ f ls, Tree.Factor.Spelled f ls ∧ before = ls ++ after := by
  unfold terminalOrRange
  apply finds_terminal.bind
  intro first
  apply finds_current
  intro t
  by_cases ht : t.kind = .mark '…'
  · rw [if_pos ht]
    apply (finds_advance_mark ht).bind
    intro _
    apply finds_terminal.bind
    intro last
    apply finds_pure
    intro after _ _ hlast _ hdots rest hcurrent before hfirst
    obtain ⟨value', l', hvalue', rfl⟩ := hlast
    obtain rfl := hdots rest hcurrent
    obtain ⟨value, l, hvalue, rfl⟩ := hfirst
    exact ⟨_, _, .range hvalue hvalue', rfl⟩
  · rw [if_neg ht]
    apply finds_pure
    intro after _ _ _ before hfirst
    obtain ⟨value, l, hvalue, rfl⟩ := hfirst
    exact ⟨_, _, .text hvalue, rfl⟩

def FindsUpTo (depth : Nat) (ex : Reader Expression) : Prop :=
  Finds ex fun _ before after => before.length ≤ depth →
    ∃ body ls, Tree.Alternatives.Spelled body ls ∧ before = ls ++ after

variable {depth : Nat} {ex : Reader Expression}

def TermBetween (depth : Nat) (o : Option Expression) (before after : List Lexeme) : Prop :=
  before.length ≤ depth + 1 →
    match o with
    | none => before = after
    | some _ => ∃ f ls, Tree.Factor.Spelled f ls ∧ before = ls ++ after

theorem finds_bracketed (hex : FindsUpTo depth ex) {t : Token} {opening closing : Char}
    {make : Expression → Expression} {wrap : Tree.Alternatives → Tree.Factor}
    (ht : t.kind = .mark opening)
    (hwrap : ∀ {body : Tree.Alternatives} {ls}, body.Spelled ls →
      (wrap body).Spelled (.mark opening :: ls ++ [.mark closing])) :
    Finds (do advance; let e ← ex; expect (.mark closing); return some (make e))
      fun o before after =>
        ∀ rest, before = t.lexeme :: rest → TermBetween depth o before after := by
  apply (finds_advance_mark ht).bind
  intro _
  apply Finds.bind hex
  intro e
  apply finds_mark.bind
  intro _
  apply finds_pure
  intro after _ _ hclosing inside hbody before hopening rest hcurrent hdepth
  obtain rfl := hopening rest hcurrent
  obtain ⟨body, ls, hspelled, rfl⟩ := hbody (Nat.le_of_succ_le_succ hdepth)
  exact ⟨_, _, hwrap hspelled, by simp [hclosing]⟩

theorem finds_term (hex : FindsUpTo depth ex) : Finds (term? ex) (TermBetween depth) := by
  unfold term?
  apply finds_current
  intro t
  have hliteral : Finds (do return some (← terminalOrRange)) fun o before after =>
      ∀ rest, before = t.lexeme :: rest → TermBetween depth o before after := by
    apply finds_terminalOrRange.bind
    intro e
    apply finds_pure
    intro after _ before hread _ _ _
    exact hread
  dsimp only
  split
  · apply finds_name.bind
    intro v
    apply finds_pure
    intro after _ before hread _ _ _
    exact ⟨_, _, .name hread.1, hread.2⟩
  · exact hliteral
  · exact hliteral
  · rename_i ht
    exact finds_bracketed hex ht .group
  · rename_i ht
    exact finds_bracketed hex ht .option
  · rename_i ht
    exact finds_bracketed hex ht .repetition
  · apply finds_pure
    intro before _ _ _ _
    rfl

def TermsBetween (depth : Nat) (es : List Expression) (before after : List Lexeme) : Prop :=
  before.length ≤ depth + 1 →
    match es with
    | [] => before = after
    | _ :: _ => ∃ fs ls, Tree.SequenceOf Tree.Factor.Spelled fs ls ∧ before = ls ++ after

theorem finds_terms (hex : FindsUpTo depth ex) (fuel : Nat) :
    Finds (terms ex fuel) (TermsBetween depth) := by
  induction fuel with
  | zero => exact finds_pure fun _ _ _ => rfl
  | succ fuel ih =>
    unfold terms
    apply (finds_term hex).bind
    intro o
    cases o with
    | none => exact finds_pure fun _ _ _ hnone => hnone
    | some e =>
      apply ih.bind
      intro es
      apply finds_pure
      intro after _ middle hrest before hterm hdepth
      obtain ⟨f, ls, hf, rfl⟩ := hterm hdepth
      rw [List.length_append] at hdepth
      have hrest := hrest (by omega)
      cases es with
      | nil =>
        obtain rfl : middle = after := hrest
        exact ⟨_, _, .last hf, rfl⟩
      | cons e' es =>
        obtain ⟨fs, ls', hfs, rfl⟩ := hrest
        exact ⟨_, _, .next hf hfs, (List.append_assoc ls ls' after).symm⟩

theorem finds_sequence (hex : FindsUpTo depth ex) :
    Finds (sequence ex) fun _ before after => before.length ≤ depth + 1 →
      ∃ fs ls, Tree.SequenceOf Tree.Factor.Spelled fs ls ∧ before = ls ++ after := by
  unfold sequence
  apply finds_get
  intro r
  apply (finds_terms hex _).bind
  intro es
  rcases es with _ | ⟨e, _ | ⟨e', es⟩⟩
  · apply (finds_reportExpected _).bind
    intro _
    apply finds_current
    intro t
    exact finds_pure fun _ _ _ _ _ hfalse => hfalse.elim
  · exact finds_pure fun _ _ _ hterms _ => hterms
  · exact finds_pure fun _ _ _ hterms _ => hterms

theorem finds_alternatives (hex : FindsUpTo depth ex) (fuel : Nat) :
    Finds (alternatives ex fuel) fun _ before after => before.length ≤ depth + 1 →
      before.length ≤ fuel →
      ∃ body ls, Tree.Alternatives.Spelled body ls ∧ before = ls ++ after := by
  induction fuel with
  | zero => exact finds_pure fun _ hls _ hzero => absurd hls.length_pos (Nat.not_lt.mpr hzero)
  | succ fuel ih =>
    unfold alternatives
    apply (finds_sequence hex).bind
    intro e
    apply finds_current
    intro t
    by_cases ht : t.kind = .mark '|'
    · rw [if_pos ht]
      apply (finds_advance_mark ht).bind
      intro _
      apply ih.bind
      intro es
      apply finds_pure
      intro after _ middle hrest _ hbar rest hcurrent before hfirst hdepth hfuel
      obtain rfl := hbar rest hcurrent
      obtain ⟨fs, ls, hfs, rfl⟩ := hfirst hdepth
      rw [List.length_append, List.length_cons] at hdepth hfuel
      obtain ⟨body, ls', hbody, rfl⟩ := hrest (by omega) (by omega)
      exact ⟨_, _, .next hfs hbody, by simp⟩
    · rw [if_neg ht]
      apply finds_pure
      intro after _ _ _ before hfirst hdepth _
      obtain ⟨fs, ls, hfs, rfl⟩ := hfirst hdepth
      exact ⟨_, _, .last hfs, rfl⟩

/-- Expressions are found however deep brackets are nested in them. -/
theorem findsUpTo_expression (depth : Nat) : FindsUpTo depth (expression depth) := by
  induction depth with
  | zero =>
    apply finds_current
    intro t
    exact finds_pure fun _ hls _ _ hzero => absurd hls.length_pos (Nat.not_lt.mpr hzero)
  | succ depth ih =>
    unfold FindsUpTo expression
    apply finds_get
    intro r
    apply (finds_alternatives ih _).bind
    intro es
    have hall : ∀ {after before : List Lexeme}, (before.length ≤ depth + 1 →
        before.length ≤ r.later.length + 1 →
        ∃ body ls, Tree.Alternatives.Spelled body ls ∧ before = ls ++ after) →
        before = r.lexemes → before.length ≤ depth + 1 →
        ∃ body ls, Tree.Alternatives.Spelled body ls ∧ before = ls ++ after := by
      intro after before hbody hbefore hdepth
      exact hbody hdepth (by simp [hbefore, Reading.lexemes])
    rcases es with _ | ⟨e, _ | ⟨e', es⟩⟩
    · exact finds_pure fun _ _ _ => hall
    · exact finds_pure fun _ _ _ => hall
    · exact finds_pure fun _ _ _ => hall

theorem finds_production : Finds production fun q before after =>
    ∃ p ls, Tree.Production.Spelled p ls ∧ before = ls ++ after ∧ p.name = q.name := by
  unfold production
  apply finds_name.bind
  intro v
  apply finds_mark.bind
  intro _
  apply finds_current
  intro t
  by_cases ht : t.kind = .mark '.'
  · rw [if_pos ht]
    apply (finds_advance_mark ht).bind
    intro _
    apply finds_pure
    intro after _ _ hpoint rest hcurrent _ hequals before hname
    obtain rfl := hpoint rest hcurrent
    exact ⟨_, _, .empty hname.1, by rw [hname.2, hequals]; rfl, rfl⟩
  · rw [if_neg ht]
    apply finds_get
    intro r
    apply Finds.bind (findsUpTo_expression _)
    intro e
    apply finds_mark.bind
    intro _
    apply finds_pure
    intro after _ _ hpoint body hbody hlexemes _ _ _ hequals before hname
    obtain ⟨e, ls, hspelled, rfl⟩ := hbody (by simp [hlexemes, Reading.lexemes])
    exact ⟨_, _, .body hname.1 hspelled, by simp [hname.2, hequals, hpoint], rfl⟩

theorem finds_productions (grammar : Grammar) (fuel : Nat) :
    Finds (productions grammar fuel) fun _ before _ => before.length ≤ fuel →
      ∃ d ls, Tree.Document.Spelled d ls ∧ before = ls ++ [⟨.ending, []⟩] ∧
        ((grammar.map Production.name).Nodup →
          (grammar.map Production.name ++ d.map Tree.Production.name).Nodup) := by
  induction fuel generalizing grammar with
  | zero => exact finds_pure fun _ hls hzero => absurd hls.length_pos (Nat.not_lt.mpr hzero)
  | succ fuel ih =>
    unfold productions
    apply finds_current
    intro t
    by_cases ht : t.kind = .ending
    · rw [if_pos ht]
      apply finds_pure
      intro ls hls rest hcurrent _
      rw [hcurrent] at hls ⊢
      exact ⟨[], [], .nil, hls.of_kind_eq ht, by simp⟩
    rw [if_neg ht]
    apply finds_production.bind
    intro q
    cases hq : grammar.find? q.name with
    | some p =>
      apply (finds_report _).bind
      intro _
      exact (ih grammar).mono fun _ _ _ _ _ hfalse => hfalse.elim
    | none =>
      apply (ih (grammar ++ [q])).mono
      intro _ middle after hrest before hproduction _ _ hfuel
      obtain ⟨p, ls, hp, rfl, hname⟩ := hproduction
      have hpos : 0 < ls.length := by cases hp <;> exact Nat.succ_pos _
      rw [List.length_append] at hfuel
      obtain ⟨d, ls', hd, rfl, hnodup⟩ := hrest (by omega)
      refine ⟨p :: d, ls ++ ls', .cons hp hd, (List.append_assoc ls ls' _).symm, fun hnames => ?_⟩
      have hnew : q.name ∉ grammar.map Production.name := by
        intro hmem
        obtain ⟨p', hp', hsame⟩ := List.mem_map.mp hmem
        have hnone := List.find?_eq_none.mp hq p' hp'
        exact hnone (decide_eq_true hsame)
      rw [List.map_append, List.map_singleton, List.append_assoc, List.singleton_append] at hnodup
      rw [List.map_cons, hname]
      exact hnodup (List.nodup_append.mpr ⟨hnames, by simp, by simpa using hnew⟩)

end Reader

/-- A text has some lexemes, with the end behind them. -/
def Lexed (filename text : Bytes) (ls : List Lexeme) : Prop :=
  (tokensOf filename text).1.map Token.lexeme = ls ++ [⟨.ending, []⟩]

/-- A grammar without flaws is read from the tokens of its text by a run that reports nothing. -/
theorem Grammar.run_of_parse {filename text : Bytes} {grammar : Grammar} {ls : List Lexeme}
    (h : Grammar.parse filename text = .ok grammar) (hlexed : Lexed filename text ls) :
    ∃ r : Reading, r.lexemes = ls ++ [⟨.ending, []⟩] ∧
      ((Reader.productions [] r.lexemes.length).run r).1 = grammar ∧
      ((Reader.productions [] r.lexemes.length).run r).2.flaws = [] := by
  unfold Lexed at hlexed
  rw [Grammar.parse, Grammar.ofText] at h
  generalize (tokensOf filename text).1 = tokens at hlexed h
  cases tokens with
  | nil => simp at hlexed
  | cons t ts =>
    refine ⟨⟨t, ts, []⟩, hlexed, ?_⟩
    have hlength : (Reading.lexemes ⟨t, ts, []⟩).length = ts.length + 1 := by
      simp [Reading.lexemes]
    rw [hlength]
    rw [Grammar.ofTokens] at h
    generalize (Reader.productions [] (ts.length + 1)).run ⟨t, ts, []⟩ = run at h
    split at h
    · rename_i heq
      obtain ⟨hgrammar, hflaws⟩ := Prod.mk.inj heq
      cases h
      exact ⟨hgrammar, List.reverse_eq_nil_iff.mp hflaws⟩
    · cases h

/-- Proper lexemes that a grammar is read from without flaws are those of a tree that stands for it.
-/
theorem exists_spelled_of_parse {filename text : Bytes} {grammar : Grammar} {ls : List Lexeme}
    (hlexed : Lexed filename text ls) (hproper : ∀ l ∈ ls, l.Proper)
    (h : Grammar.parse filename text = .ok grammar) :
    ∃ d, Tree.Document.Spelled d ls ∧
      grammar.map (fun p => some p.unplaced) = d.map Tree.Production.translate? := by
  obtain ⟨r, hr, hgrammar, hflaws⟩ := Grammar.run_of_parse h hlexed
  have hended : Ended r.lexemes := hr ▸ ended_of_proper hproper
  have hfound := (Reader.finds_productions [] r.lexemes.length).finds r hended hflaws
  obtain ⟨d, ls', hspelled, hlexemes, hnames⟩ := hfound.2 (Nat.le_refl _)
  obtain rfl : ls = ls' := List.append_cancel_right (hr.symm.trans hlexemes)
  have hfuel : d.length ≤ r.lexemes.length := by
    rw [hr, List.length_append]
    exact Nat.le_trans hspelled.length_le (Nat.le_add_right _ _)
  have hpasses := Reader.passes_productions [] hspelled hfuel (hnames List.nodup_nil)
  obtain ⟨⟨ps, hps, htranslated⟩, _⟩ := hpasses r hr
  rw [hgrammar] at hps
  exact ⟨d, hspelled, hps ▸ htranslated⟩

/-- From the lexemes of a tree without repeated names the grammar is read that it stands for. -/
theorem parse_of_spelled {filename text : Bytes} {d : Tree.Document} {ls : List Lexeme}
    (hlexed : Lexed filename text ls) (hspelled : d.Spelled ls)
    (hnames : (d.map Tree.Production.name).Nodup) :
    ∃ grammar, Grammar.parse filename text = .ok grammar ∧
      grammar.map (fun p => some p.unplaced) = d.map Tree.Production.translate? := by
  unfold Lexed at hlexed
  rw [Grammar.parse, Grammar.ofText]
  generalize (tokensOf filename text).1 = tokens at hlexed
  cases tokens with
  | nil => simp at hlexed
  | cons t ts =>
    have hlength := congrArg List.length hlexed
    simp only [List.length_map, List.length_cons, List.length_append, List.length_nil] at hlength
    have hfuel : d.length ≤ ts.length + 1 := by
      have hle := hspelled.length_le
      omega
    obtain ⟨⟨ps, hps, htranslated⟩, _, hflaws⟩ :=
      Reader.passes_productions [] hspelled hfuel hnames ⟨t, ts, []⟩ hlexed
    rw [Grammar.ofTokens]
    generalize (Reader.productions [] (ts.length + 1)).run ⟨t, ts, []⟩ = r at hps hflaws
    obtain ⟨grammar, reading⟩ := r
    obtain rfl : grammar = [] ++ ps := hps
    have hnone : reading.flaws = [] := hflaws
    dsimp only
    rw [hnone]
    exact ⟨grammar, rfl, htranslated⟩

end Backtrack.Ebnf
