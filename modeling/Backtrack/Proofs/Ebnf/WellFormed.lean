import Backtrack.Ebnf.Reader
import Backtrack.Proofs.Ebnf.Places
import Backtrack.Proofs.Ebnf.Verification

/-!
# Grammars that are read without flaws

Where nothing is reported, the productions of a grammar have different names, which are identifiers,
and stand in the order of the text; and every expression has been read whole. The reader never takes
a flaw back, so a run without flaws has none at any step, and what it leaves of the tokens is their
end. The bound on the depth of brackets is not met, because every bracket is a token.

This module does NOT say which grammar a text spells.
-/

namespace Backtrack.Ebnf

structure Grammar.WellFormed (grammar : Grammar) : Prop where
  distinct : (grammar.map Production.name).Nodup
  ascending : Ascending (grammar.map Production.position)
  identifiers : ∀ p ∈ grammar, Identifier p.name
  whole : ∀ p ∈ grammar, ∀ body ∈ p.body, body.Whole

def Reading.tokens (r : Reading) : List Token := r.current :: r.later

theorem Listed.suffix {ts us : List Token} (h : Listed ts) (hus : us <:+ ts) (hne : us ≠ []) :
    Listed us := by
  induction h with
  | ending ht =>
    rcases List.suffix_cons_iff.mp hus with rfl | hus
    · exact .ending ht
    · exact absurd (List.suffix_nil.mp hus) hne
  | token hkind hname hrest ih =>
    rcases List.suffix_cons_iff.mp hus with rfl | hus
    · exact .token hkind hname hrest
    · exact ih hus

theorem Listed.of_cons {t : Token} {ts : List Token} (h : Listed (t :: ts))
    (ht : t.kind ≠ .ending) : ts ≠ [] ∧ (t.kind = .identifier → Identifier t.text) := by
  cases h with
  | ending hend => exact absurd hend ht
  | token _ hname hrest =>
    refine ⟨?_, hname⟩
    rintro rfl
    cases hrest

namespace Reader

variable {α β : Type} {p : Reader α} {good : α → List Token → List Token → Prop}

/-- Where a reader ends without flaws, there were none before, it leaves the end of the tokens, and
its answer is as it should be in view of the tokens before and after. -/
structure Takes (p : Reader α) (good : α → List Token → List Token → Prop) : Prop where
  keeps : ∀ r, (p.run r).2.flaws = [] → r.flaws = []
  takes : ∀ r, Listed r.tokens → (p.run r).2.flaws = [] →
    (p.run r).2.tokens <:+ r.tokens ∧ good (p.run r).1 r.tokens (p.run r).2.tokens

theorem takes_pure {v : α} (h : ∀ ts, ts ≠ [] → good v ts ts) : Takes (pure v) good where
  keeps _ hr := hr
  takes _ _ _ := ⟨List.suffix_rfl, h _ (List.cons_ne_nil _ _)⟩

theorem Takes.mono {good' : α → List Token → List Token → Prop} (hp : Takes p good)
    (h : ∀ v before after, good v before after → good' v before after) : Takes p good' where
  keeps := hp.keeps
  takes r hr hflaws := by
    obtain ⟨hafter, hgood⟩ := hp.takes r hr hflaws
    exact ⟨hafter, h _ _ _ hgood⟩

section Steps

variable {good' : β → List Token → List Token → Prop}

theorem Takes.bind {f : α → Reader β} (hp : Takes p good)
    (hf : ∀ v, Takes (f v) fun w middle after =>
      ∀ before, middle <:+ before → good v before middle → good' w before after) :
    Takes (p >>= f) good' where
  keeps r hr := hp.keeps r ((hf _).keeps _ hr)
  takes r hr hflaws := by
    obtain ⟨hmiddle, hgood⟩ := hp.takes r hr ((hf _).keeps _ hflaws)
    have hlisted := hr.suffix hmiddle (List.cons_ne_nil _ _)
    obtain ⟨hafter, hgood'⟩ := (hf _).takes _ hlisted hflaws
    exact ⟨hafter.trans hmiddle, hgood' _ hmiddle hgood⟩

/-- Looking at the current token takes nothing. -/
theorem takes_current {f : Token → Reader β}
    (hf : ∀ t, Takes (f t) fun w before after =>
      ∀ rest, before = t :: rest → good' w before after) :
    Takes (current >>= f) good' where
  keeps r hr := (hf _).keeps r hr
  takes r hr hflaws := by
    obtain ⟨hafter, hgood⟩ := (hf r.current).takes r hr hflaws
    exact ⟨hafter, hgood _ rfl⟩

theorem takes_get {f : Reading → Reader β}
    (hf : ∀ r, Takes (f r) fun w before after => before = r.tokens → good' w before after) :
    Takes (get >>= f) good' where
  keeps r hr := (hf _).keeps r hr
  takes r hr hflaws := by
    obtain ⟨hafter, hgood⟩ := (hf r).takes r hr hflaws
    exact ⟨hafter, hgood rfl⟩

end Steps

def Passed (t : Token) (before after : List Token) : Prop :=
  (t.kind = .identifier → Identifier t.text) ∧ before = t :: after

theorem takes_advance : Takes advance fun _ before after =>
    ∀ t rest, before = t :: rest → t.kind ≠ .ending → Passed t before after where
  keeps r hr := by
    obtain ⟨current, later, flaws⟩ := r
    cases later <;> exact hr
  takes r hr _ := by
    obtain ⟨current, later, flaws⟩ := r
    cases later with
    | nil =>
      refine ⟨List.suffix_rfl, fun t rest hcons ht => ?_⟩
      obtain ⟨rfl, rfl⟩ := List.cons.inj hcons
      exact absurd rfl (hr.of_cons ht).1
    | cons u us =>
      refine ⟨List.suffix_cons _ _, fun t rest hcons ht => ?_⟩
      obtain ⟨rfl, rfl⟩ := List.cons.inj hcons
      exact ⟨(hr.of_cons ht).2, rfl⟩

theorem takes_report (flaw : Flaw) : Takes (report flaw) fun _ _ _ => False where
  keeps _ hr := absurd hr (List.cons_ne_nil _ _)
  takes _ _ hr := absurd hr (List.cons_ne_nil _ _)

theorem takes_reportExpected (what : Bytes) : Takes (reportExpected what) fun _ _ _ => False := by
  unfold reportExpected
  apply takes_current
  intro t
  exact (takes_report _).mono fun _ _ _ hfalse => hfalse.elim

theorem takes_expect (kind : Kind) (hkind : kind ≠ .ending) :
    Takes (expect kind) fun _ before after => ∃ t, t.kind = kind ∧ Passed t before after := by
  unfold expect
  apply takes_current
  intro t
  by_cases ht : t.kind = kind
  · rw [if_neg (not_not_intro ht)]
    apply takes_advance.mono
    intro _ before after hadvance rest hbefore
    exact ⟨t, ht, hadvance t rest hbefore fun h => hkind (ht.symm.trans h)⟩
  · rw [if_pos ht]
    apply (takes_reportExpected _).bind
    intro _
    exact takes_advance.mono fun _ _ _ _ _ _ hfalse => hfalse.elim

theorem takes_name : Takes name fun v before after =>
    ∃ t, Identifier t.text ∧ before = t :: after ∧ v = (t.position, t.text) := by
  unfold name
  apply takes_current
  intro t
  apply (takes_expect .identifier nofun).bind
  intro _
  apply takes_pure
  intro after _ before _ hexpect rest hcurrent
  obtain ⟨u, hkind, hname, rfl⟩ := hexpect
  obtain ⟨rfl, rfl⟩ := List.cons.inj hcurrent
  exact ⟨u, hname hkind, rfl, rfl⟩

/-- Any answer will do. -/
theorem takes_terminal : Takes terminal fun _ _ _ => True := by
  unfold terminal
  apply takes_current
  intro t
  split
  · apply takes_advance.bind
    intro _
    exact takes_pure fun _ _ _ _ _ _ _ => trivial
  · apply (takes_expect .string nofun).bind
    intro _
    exact takes_pure fun _ _ _ _ _ _ _ => trivial

theorem takes_terminalOrRange : Takes terminalOrRange fun e _ _ => e.Whole := by
  unfold terminalOrRange
  apply takes_terminal.bind
  intro first
  apply takes_current
  intro t
  split
  · apply takes_advance.bind
    intro _
    apply takes_terminal.bind
    intro last
    exact takes_pure fun _ _ _ _ _ _ _ _ _ _ _ _ _ => .range first last
  · exact takes_pure fun _ _ _ _ _ _ _ => .token first

/-- A reader of expressions that reads them whole where few tokens are left. -/
def TakesUpTo (depth : Nat) (ex : Reader Expression) : Prop :=
  Takes ex fun e before _ => before.length ≤ depth → e.Whole

variable {depth : Nat} {ex : Reader Expression}

theorem takes_bracketed (hex : TakesUpTo depth ex) {t : Token} {opening closing : Char}
    {make : Expression → Expression} (ht : t.kind = .mark opening)
    (hmake : ∀ {e : Expression}, e.Whole → (make e).Whole) :
    Takes (do advance; let e ← ex; expect (.mark closing); return some (make e))
      fun o before _ => ∀ rest, before = t :: rest → before.length ≤ depth + 1 →
        ∀ e ∈ o, e.Whole := by
  apply takes_advance.bind
  intro _
  apply Takes.bind hex
  intro e
  apply (takes_expect (.mark closing) nofun).bind
  intro _
  apply takes_pure
  intro _ _ _ _ _ inside _ hbody before _ hopening rest hcurrent hdepth _ he
  have hne : t.kind ≠ .ending := by
    rw [ht]
    nofun
  obtain ⟨_, rfl⟩ := hopening t rest hcurrent hne
  cases he
  exact hmake (hbody (Nat.le_of_succ_le_succ hdepth))

theorem takes_term (hex : TakesUpTo depth ex) : Takes (term? ex) fun o before _ =>
    before.length ≤ depth + 1 → ∀ e ∈ o, e.Whole := by
  unfold term?
  apply takes_current
  intro t
  have hliteral : Takes (do return some (← terminalOrRange)) fun o before _ =>
      ∀ rest, before = t :: rest → before.length ≤ depth + 1 → ∀ e ∈ o, e.Whole := by
    apply takes_terminalOrRange.bind
    intro e
    apply takes_pure
    intro _ _ _ _ hwhole _ _ _ _ he
    cases he
    exact hwhole
  dsimp only
  split
  · apply takes_name.bind
    intro v
    apply takes_pure
    intro _ _ _ _ _ _ _ _ _ he
    cases he
    exact .name _ _
  · exact hliteral
  · exact hliteral
  · rename_i ht
    exact takes_bracketed hex ht (.group _)
  · rename_i ht
    exact takes_bracketed hex ht (.option _)
  · rename_i ht
    exact takes_bracketed hex ht (.repetition _)
  · exact takes_pure fun _ _ _ _ _ _ he => nomatch he

theorem takes_terms (hex : TakesUpTo depth ex) (fuel : Nat) : Takes (terms ex fuel)
    fun es before _ => before.length ≤ depth + 1 → ∀ e ∈ es, e.Whole := by
  induction fuel with
  | zero => exact takes_pure fun _ _ _ => List.forall_mem_nil _
  | succ fuel ih =>
    unfold terms
    apply (takes_term hex).bind
    intro o
    cases o with
    | none => exact takes_pure fun _ _ _ _ _ _ => List.forall_mem_nil _
    | some e =>
      apply ih.bind
      intro es
      apply takes_pure
      intro _ _ middle _ hrest before hmiddle hterm hdepth
      refine List.forall_mem_cons.mpr ⟨hterm hdepth e rfl, hrest ?_⟩
      exact Nat.le_trans hmiddle.length_le hdepth

theorem takes_sequence (hex : TakesUpTo depth ex) : Takes (sequence ex)
    fun e before _ => before.length ≤ depth + 1 → e.Whole := by
  unfold sequence
  apply takes_get
  intro r
  apply (takes_terms hex _).bind
  intro es
  rcases es with _ | ⟨e, _ | ⟨e', es⟩⟩
  · apply (takes_reportExpected _).bind
    intro _
    apply takes_current
    intro t
    exact takes_pure fun _ _ _ _ _ _ hfalse => hfalse.elim
  · apply takes_pure
    intro _ _ _ _ hterms _ hdepth
    exact hterms hdepth e List.mem_cons_self
  · apply takes_pure
    intro _ _ _ _ hterms _ hdepth
    exact .sequence (hterms hdepth)

theorem takes_alternatives (hex : TakesUpTo depth ex) (fuel : Nat) : Takes (alternatives ex fuel)
    fun es before _ => before.length ≤ depth + 1 → ∀ e ∈ es, e.Whole := by
  induction fuel with
  | zero => exact takes_pure fun _ _ _ => List.forall_mem_nil _
  | succ fuel ih =>
    unfold alternatives
    apply (takes_sequence hex).bind
    intro e
    apply takes_current
    intro t
    split
    · apply takes_advance.bind
      intro _
      apply ih.bind
      intro es
      apply takes_pure
      intro _ _ later _ hrest middle hlater _ _ _ before hmiddle hfirst hdepth
      refine List.forall_mem_cons.mpr ⟨hfirst hdepth, hrest ?_⟩
      exact Nat.le_trans (hlater.trans hmiddle).length_le hdepth
    · apply takes_pure
      intro _ _ _ _ before _ hfirst hdepth
      exact List.forall_mem_singleton.mpr (hfirst hdepth)

/-- Expressions are read whole however deep brackets are nested in them. -/
theorem takesUpTo_expression (depth : Nat) : TakesUpTo depth (expression depth) := by
  induction depth with
  | zero =>
    apply takes_current
    intro t
    apply takes_pure
    intro ts hts _ _ hzero
    exact absurd (List.length_eq_zero_iff.mp (Nat.le_zero.mp hzero)) hts
  | succ depth ih =>
    unfold TakesUpTo expression
    apply takes_get
    intro r
    apply (takes_alternatives ih _).bind
    intro es
    rcases es with _ | ⟨e, _ | ⟨e', es⟩⟩
    · exact takes_pure fun _ _ _ _ hall _ hdepth => .alternative (hall hdepth)
    · exact takes_pure fun _ _ _ _ hall _ hdepth => hall hdepth e List.mem_cons_self
    · exact takes_pure fun _ _ _ _ hall _ hdepth => .alternative (hall hdepth)

structure StartsAt (t : Token) (q : Production) : Prop where
  position : q.position = t.position
  identifier : Identifier q.name
  whole : ∀ body ∈ q.body, body.Whole

theorem takes_production : Takes production fun q before after =>
    ∃ t rest, before = t :: rest ∧ after <:+ rest ∧ StartsAt t q := by
  unfold production
  apply takes_name.bind
  intro v
  apply (takes_expect (.mark '=') nofun).bind
  intro _
  apply takes_current
  intro t
  split
  · apply takes_advance.bind
    intro _
    apply takes_pure
    intro _ _ inside hpoint _ _ _ behind hequals _ before _ hname
    obtain ⟨u, hidentifier, rfl, rfl⟩ := hname
    exact ⟨u, _, rfl, hpoint.trans hequals, rfl, hidentifier, nofun⟩
  · apply takes_get
    intro r
    apply Takes.bind (takesUpTo_expression _)
    intro e
    apply (takes_expect (.mark '.') nofun).bind
    intro _
    apply takes_pure
    intro _ _ inside hpoint _ body hbody hwhole htokens _ _ behind hequals _ before _ hname
    obtain ⟨u, hidentifier, rfl, rfl⟩ := hname
    refine ⟨u, _, rfl, (hpoint.trans hbody).trans hequals, rfl, hidentifier, ?_⟩
    rintro _ ⟨⟩
    exact hwhole (by simp [htokens, Reading.tokens])

structure ReadBefore (grammar : Grammar) (ts : List Token) : Prop where
  wellFormed : grammar.WellFormed
  before : ∀ p ∈ grammar, ∀ t ∈ ts, p.position.offset < t.position.offset

theorem ReadBefore.append {grammar : Grammar} {t : Token} {rest after : List Token}
    {q : Production} (h : ReadBefore grammar (t :: rest)) (hq : StartsAt t q)
    (hnew : grammar.find? q.name = none) (hafter : after <:+ rest)
    (hordered : Ascending ((t :: rest).map Token.position)) :
    ReadBefore (grammar ++ [q]) after := by
  have hnames : ∀ p ∈ grammar, p.name ≠ q.name :=
    fun p hp hname => List.find?_eq_none.mp hnew p hp (decide_eq_true hname)
  have hbefore : ∀ p ∈ grammar, p.position.offset < q.position.offset := by
    intro p hp
    rw [hq.position]
    exact h.before p hp t List.mem_cons_self
  have hlater : ∀ u ∈ after, q.position.offset < u.position.offset := by
    intro u hu
    rw [hq.position]
    have hfirst := (List.pairwise_cons.mp hordered).1
    exact hfirst _ (List.mem_map_of_mem (hafter.mem hu))
  refine ⟨⟨?_, ?_, ?_, ?_⟩, ?_⟩
  · rw [List.map_append, List.map_singleton]
    refine List.nodup_append.mpr ⟨h.wellFormed.distinct, List.pairwise_singleton _ _, ?_⟩
    simpa using hnames
  · rw [List.map_append, List.map_singleton]
    refine List.pairwise_append.mpr ⟨h.wellFormed.ascending, List.pairwise_singleton _ _, ?_⟩
    simpa using hbefore
  · exact List.forall_mem_append.mpr
      ⟨h.wellFormed.identifiers, List.forall_mem_singleton.mpr hq.identifier⟩
  · exact List.forall_mem_append.mpr
      ⟨h.wellFormed.whole, List.forall_mem_singleton.mpr hq.whole⟩
  · refine List.forall_mem_append.mpr ⟨fun p hp u hu => ?_, List.forall_mem_singleton.mpr hlater⟩
    exact Int.lt_trans (hbefore p hp) (hlater u hu)

theorem takes_productions (grammar : Grammar) (fuel : Nat) : Takes (productions grammar fuel)
    fun v before _ => Ascending (before.map Token.position) → ReadBefore grammar before →
      v.WellFormed := by
  induction fuel generalizing grammar with
  | zero => exact takes_pure fun _ _ _ h => h.wellFormed
  | succ fuel ih =>
    unfold productions
    apply takes_current
    intro t
    split
    · exact takes_pure fun _ _ _ _ _ h => h.wellFormed
    apply takes_production.bind
    intro q
    cases hq : grammar.find? q.name with
    | some p =>
      apply (takes_report _).bind
      intro _
      exact (ih grammar).mono fun _ _ _ _ _ _ hfalse => hfalse.elim
    | none =>
      apply (ih (grammar ++ [q])).mono
      intro v middle _ hrest before hmiddle hproduction _ _ hordered hread
      obtain ⟨u, rest, rfl, hafter, hstarts⟩ := hproduction
      apply hrest
      · exact hordered.sublist (hmiddle.sublist.map Token.position)
      · exact hread.append hstarts hq hafter hordered

end Reader

/-- A grammar that is read without flaws is well-formed. -/
theorem Grammar.wellFormed_of_parse {filename text : Bytes} {grammar : Grammar}
    (h : Grammar.parse filename text = .ok grammar) : grammar.WellFormed := by
  obtain ⟨hlisted, hordered⟩ := listed_tokensOf filename text
  rw [Grammar.parse, Grammar.ofText] at h
  generalize (tokensOf filename text).1 = tokens at hlisted hordered h
  cases tokens with
  | nil => cases hlisted
  | cons t ts =>
    have hrun := (Reader.takes_productions [] (ts.length + 1)).takes ⟨t, ts, []⟩ hlisted
    rw [Grammar.ofTokens] at h
    generalize (Reader.productions [] (ts.length + 1)).run ⟨t, ts, []⟩ = run at h hrun
    split at h
    · rename_i heq
      obtain ⟨hgrammar, hflaws⟩ := Prod.mk.inj heq
      cases h
      obtain ⟨_, hgood⟩ := hrun (List.reverse_eq_nil_iff.mp hflaws)
      rw [← hgrammar]
      exact hgood hordered ⟨⟨List.nodup_nil, .nil, nofun, nofun⟩, nofun⟩
    · cases h

end Backtrack.Ebnf
