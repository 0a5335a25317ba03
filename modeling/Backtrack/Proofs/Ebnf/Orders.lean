import Backtrack.Proofs.Ebnf.Compilation
import Backtrack.Proofs.Ebnf.Drawing

/-!
# The order of productions

A grammar is kept as a table, which may be gone through in any order. In which order that happens
shows neither in the parsers of a grammar nor in its page: names are looked up, references are
counted, and sections are sorted. A table that is filled while its entries already refer to each
other is the same in the end, and there is but one way to sort productions that stand in different
places.

This module does NOT say in which order problems are reported.
-/

namespace Backtrack.Ebnf

variable {grammar order : Grammar}

namespace Grammar

theorem find?_eq_some_iff (hdistinct : (grammar.map Production.name).Nodup) {name : Bytes}
    {p : Production} : grammar.find? name = some p ↔ p ∈ grammar ∧ p.name = name := by
  refine ⟨find?_name, ?_⟩
  rintro ⟨hp, rfl⟩
  induction grammar with
  | nil => cases hp
  | cons q grammar ih =>
    obtain ⟨hq, hdistinct⟩ := List.nodup_cons.mp hdistinct
    unfold find?
    rcases List.mem_cons.mp hp with rfl | hp
    · exact List.find?_cons_of_pos (decide_eq_true rfl)
    · have hne : q.name ≠ p.name := fun h => hq (h ▸ List.mem_map_of_mem hp)
      rw [List.find?_cons_of_neg (by simpa using hne)]
      exact ih hdistinct hp

theorem find?_perm (hperm : order.Perm grammar) (hdistinct : (grammar.map Production.name).Nodup) :
    order.find? = grammar.find? := by
  have hdistinct' := ((hperm.map Production.name).nodup_iff).mpr hdistinct
  funext name
  apply Option.ext
  intro p
  rw [find?_eq_some_iff hdistinct, find?_eq_some_iff hdistinct', hperm.mem_iff]

end Grammar

mutual

theorem Expression.problems_congr (h : order.find? = grammar.find?) (lexical : Bool) :
    (e : Expression) → e.problems order lexical = e.problems grammar lexical
  | .name _ _ => by simp only [Expression.problems, referenceProblems, h]
  | .token _ | .range .. | .bad .. => rfl
  | .group _ body | .option _ body | .repetition _ body => body.problems_congr h lexical
  | .sequence parts | .alternative parts => problemsOfAll_congr h lexical parts

theorem problemsOfAll_congr (h : order.find? = grammar.find?) (lexical : Bool) :
    (es : List Expression) → Expression.problems.problemsOfAll order lexical es =
      Expression.problems.problemsOfAll grammar lexical es
  | [] => rfl
  | e :: es => by
    simp only [Expression.problems.problemsOfAll, e.problems_congr h lexical,
      problemsOfAll_congr h lexical es]

end

theorem Production.problems_congr (h : order.find? = grammar.find?) :
    Production.problems order = Production.problems grammar := by
  funext p
  unfold Production.problems
  cases p.body with
  | none => rfl
  | some body => exact body.problems_congr h _

namespace Frontier

/-- Frontiers that differ in the order of what has not been found. -/
structure Alike (f g : Frontier) : Prop where
  waiting : f.waiting = g.waiting
  unseen : f.unseen.Perm g.unseen
  distinct : (g.unseen.map Production.name).Nodup

variable {f g : Frontier}

theorem filter_name (h : (grammar.map Production.name).Nodup) (name : Bytes) :
    grammar.filter (fun p => p.name = name) = (grammar.find? name).toList := by
  induction grammar with
  | nil => rfl
  | cons p grammar ih =>
    obtain ⟨hp, h⟩ := List.nodup_cons.mp h
    unfold Grammar.find?
    by_cases hname : p.name = name
    · have hnone : grammar.filter (fun q => q.name = name) = [] := by
        refine List.filter_eq_nil_iff.mpr fun q hq hsame => hp ?_
        rw [hname, ← of_decide_eq_true hsame]
        exact List.mem_map_of_mem hq
      rw [List.filter_cons_of_pos (by simpa using hname),
        List.find?_cons_of_pos (by simpa using hname), hnone]
      rfl
    · rw [List.filter_cons_of_neg (by simpa using hname),
        List.find?_cons_of_neg (by simpa using hname)]
      exact ih h

/-- At most one production is found, so it waits in the same place. -/
theorem Alike.discover (h : f.Alike g) (name : Bytes) :
    (f.discover name).Alike (g.discover name) := by
  unfold Frontier.discover
  rw [List.partition_eq_filter_filter, List.partition_eq_filter_filter]
  refine ⟨?_, h.unseen.filter _, h.distinct.sublist (List.filter_sublist.map _)⟩
  have hdistinct := ((h.unseen.map Production.name).nodup_iff).mpr h.distinct
  dsimp only
  rw [h.waiting, filter_name hdistinct, filter_name h.distinct,
    Grammar.find?_perm h.unseen h.distinct]

theorem Alike.foldl_discover (h : f.Alike g) (names : List Bytes) :
    (names.foldl Frontier.discover f).Alike (names.foldl Frontier.discover g) := by
  induction names generalizing f g with
  | nil => exact h
  | cons name names ih => exact ih (h.discover name)

theorem Alike.visit (h : f.Alike g) (fuel : Nat) :
    (visit fuel f).1 = (visit fuel g).1 ∧ (visit fuel f).2.Perm (visit fuel g).2 := by
  induction fuel generalizing f g with
  | zero => exact ⟨rfl, h.unseen⟩
  | succ fuel ih =>
    obtain ⟨waiting, unseen⟩ := f
    obtain ⟨waiting', unseen'⟩ := g
    obtain rfl : waiting = waiting' := h.waiting
    cases waiting with
    | nil => exact ⟨rfl, h.unseen⟩
    | cons p waiting =>
      have hfound : Alike ⟨waiting, unseen⟩ ⟨waiting, unseen'⟩ := ⟨rfl, h.unseen, h.distinct⟩
      obtain ⟨hvisited, hunseen⟩ := ih (hfound.foldl_discover p.names)
      exact ⟨congrArg (p :: ·) hvisited, hunseen⟩

end Frontier

namespace Grammar

variable {start : Bytes}

/-- A grammar is accepted in any order. -/
theorem verify_perm (hperm : order.Perm grammar)
    (hdistinct : (grammar.map Production.name).Nodup) (h : grammar.verify start = .ok ()) :
    order.verify start = .ok () := by
  have hfind := find?_perm hperm hdistinct
  have hnone := problems_eq_nil h
  have hfrontier : Frontier.Alike ⟨[], order⟩ ⟨[], grammar⟩ := ⟨rfl, hperm, hdistinct⟩
  obtain ⟨hvisited, hunseen⟩ := (hfrontier.discover start).visit grammar.length
  suffices order.problems start = [] by rw [verify, this]
  unfold problems at hnone ⊢
  split at hnone
  · cases hnone
  rename_i hstart
  obtain ⟨hproblems, hreached⟩ := List.append_eq_nil_iff.mp hnone
  rw [hfind, if_neg hstart, reach, hperm.length_eq]
  refine List.append_eq_nil_iff.mpr ⟨?_, ?_⟩
  · rw [hvisited, Production.problems_congr hfind]
    exact hproblems
  · rw [List.map_eq_nil_iff.mp hreached] at hunseen
    rw [hunseen.eq_nil]
    rfl

end Grammar

theorem Expression.Verified.defined {lexical : Bool} {name : Bytes} {e : Expression}
    (he : e.Verified grammar lexical) (h : e.Mentions name) : (grammar.find? name).isSome := by
  induction h with
  | name =>
    cases he with
    | name _ hdefined => exact hdefined
  | group _ _ ih =>
    cases he with
    | group _ hbody => exact ih hbody
  | option _ _ ih =>
    cases he with
    | option _ hbody => exact ih hbody
  | repetition _ _ ih =>
    cases he with
    | repetition _ hbody => exact ih hbody
  | sequence hmem _ ih =>
    cases he with
    | sequence hparts => exact ih (hparts _ hmem)
  | alternative hmem _ ih =>
    cases he with
    | alternative hparts => exact ih (hparts _ hmem)

/-- A verified grammar refers to productions only. -/
theorem Grammar.Verified.closed {start : Bytes} (h : grammar.Verified start) : grammar.Closed := by
  rintro name ⟨p, hp, body, hbody, hname⟩
  exact Grammar.find?_isSome.mp ((h.bodies p hp body hbody).defined hname)

/-- Adds the parsers of productions to a table one by one, up to the first that has none. -/
def fill (table : Definitions valueType) :
    List Production → Except Bytes (Definitions valueType)
  | [] => .ok table
  | p :: ps =>
    match p.rule with
    | .error problem => .error problem
    | .ok rule => fill (fun name => if name = p.name then some rule else table name) ps

/-- The parser of a grammar that is verified in one order and compiled in another. -/
def compileIn (verified filled : List Production) (start : Bytes) :
    Except Bytes (Parser Bytes) :=
  match Grammar.verify verified start with
  | .error problem => .error problem
  | .ok () =>
    match fill (fun _ => none) filled with
    | .error problem => .error problem
    | .ok table => .ok (table.parser filled.length (startRule start)).matchedText

/-- Each production comes to stand in the table under its name, whatever stood there. -/
theorem fill_eq {table : Definitions valueType} (hrules : ∀ p ∈ order, ∃ rule, p.rule = .ok rule)
    (hdistinct : (order.map Production.name).Nodup) :
    fill table order = .ok fun name =>
      match order.find? name with
      | none => table name
      | some p => p.rule.toOption := by
  induction order generalizing table with
  | nil => rfl
  | cons p order ih =>
    obtain ⟨⟨rule, hrule⟩, hrules⟩ := List.forall_mem_cons.mp hrules
    obtain ⟨hp, hdistinct⟩ := List.nodup_cons.mp hdistinct
    unfold fill
    rw [hrule]
    dsimp only
    rw [ih hrules hdistinct]
    refine congrArg Except.ok (funext fun name => ?_)
    by_cases hname : p.name = name
    · subst hname
      have hnone : Grammar.find? order p.name = none :=
        List.find?_eq_none.mpr fun q hq hsame =>
          hp (of_decide_eq_true hsame ▸ List.mem_map_of_mem hq)
      have hsome : Grammar.find? (p :: order) p.name = some p :=
        List.find?_cons_of_pos (decide_eq_true rfl)
      rw [hnone, hsome]
      dsimp only
      rw [if_pos rfl, hrule]
      rfl
    · have hskip : Grammar.find? (p :: order) name = Grammar.find? order name :=
        List.find?_cons_of_neg (by simpa using hname)
      rw [hskip, if_neg (Ne.symm hname)]

section Accepted

variable {start : Bytes} {verified filled : List Production}
  (hdistinct : (grammar.map Production.name).Nodup) (h : grammar.verify start = .ok ())
include hdistinct h

omit hdistinct in
theorem exists_rule_of_perm (hperm : order.Perm grammar) :
    ∀ p ∈ order, ∃ rule, p.rule = .ok rule := by
  intro p hp
  obtain ⟨rule, hrule, _⟩ := Grammar.exists_sturdy_rule (reliable_verify grammar start h)
    (Grammar.whole_of_verify h) p (hperm.mem_iff.mp hp)
  exact ⟨rule, hrule⟩

theorem fill_perm (hfilled : filled.Perm grammar) :
    fill (fun _ => none) filled = .ok grammar.definitions := by
  have hdistinct' := ((hfilled.map Production.name).nodup_iff).mpr hdistinct
  rw [fill_eq (exists_rule_of_perm h hfilled) hdistinct', Grammar.find?_perm hfilled hdistinct]
  rfl

theorem compileIn_perm (hverified : verified.Perm grammar) (hfilled : filled.Perm grammar) :
    compileIn verified filled start = .ok (grammar.parser start) := by
  unfold compileIn
  rw [Grammar.verify_perm hverified hdistinct h]
  dsimp only
  rw [fill_perm hdistinct h hfilled, hfilled.length_eq]
  rfl

theorem compile_perm (hperm : order.Perm grammar) :
    order.compile start = .ok (grammar.parser start) := by
  have hparser : order.parser start = grammar.parser start := by
    unfold Grammar.parser Grammar.definitions
    rw [Grammar.find?_perm hperm hdistinct, hperm.length_eq]
  unfold Grammar.compile Grammar.compileBy
  rw [Grammar.verify_perm hperm hdistinct h]
  dsimp only
  rw [ruleProblem?_eq_none (exists_rule_of_perm h hperm), hparser]

end Accepted

/-- Raises the count of a name; one without a production cannot be counted. -/
def Grammar.tally (grammar : Grammar) (counts : Bytes → Nat) (name : Bytes) :
    Option (Bytes → Nat) :=
  if (grammar.find? name).isSome then
    some fun other => if other = name then counts other + 1 else counts other
  else none

/-- The document of a grammar whose references are counted in one order and whose productions are
sorted into another. -/
def Grammar.documentIn (grammar : Grammar) (counted sorted : List Production) : Option Bytes := do
  let counts ← (counted.flatMap Production.names).foldlM grammar.tally fun _ => 0
  let shown := sorted.filter fun p => !(0 < counts p.name && p.terminal?.isSome)
  let page ← shown.mapM fun p => return ⟨p.name, ← p.draw grammar⟩
  return Page.html page

theorem foldlM_tally (names : List Bytes) (counts : Bytes → Nat)
    (h : ∀ name ∈ names, (grammar.find? name).isSome) :
    names.foldlM grammar.tally counts = some fun name => counts name + names.count name := by
  induction names generalizing counts with
  | nil => rfl
  | cons name names ih =>
    obtain ⟨hname, hnames⟩ := List.forall_mem_cons.mp h
    rw [List.foldlM_cons, Grammar.tally, if_pos hname]
    refine (ih _ hnames).trans (congrArg some (funext fun other => ?_))
    rw [List.count_cons]
    by_cases hother : other = name
    · subst hother
      simp only [if_pos, beq_self_eq_true]
      omega
    · rw [if_neg hother, if_neg (by simpa using Ne.symm hother)]
      rfl

mutual

theorem Expression.draw_congr (h : order.find? = grammar.find?) :
    (e : Expression) → e.draw order = e.draw grammar
  | .name _ _ => by simp only [Expression.draw, Grammar.drawReference, h]
  | .token _ | .range .. | .bad .. => rfl
  | .group _ body => by simp only [Expression.draw, body.draw_congr h]
  | .option _ body | .repetition _ body => by simp only [Expression.draw, body.draw_congr h]
  | .sequence parts | .alternative parts => by simp only [Expression.draw, drawAll_congr h parts]

theorem drawAll_congr (h : order.find? = grammar.find?) :
    (es : List Expression) → drawAll order es = drawAll grammar es
  | [] => rfl
  | e :: es => by simp only [drawAll, e.draw_congr h, drawAll_congr h es]

end

theorem Production.draw_congr (h : order.find? = grammar.find?) :
    Production.draw order = Production.draw grammar := by
  funext p
  unfold Production.draw
  cases p.body with
  | none => rfl
  | some body => exact body.draw_congr h

namespace Grammar

theorem Closed.perm (h : grammar.Closed) (hperm : order.Perm grammar) : order.Closed := by
  rintro name ⟨p, hp, hname⟩
  obtain ⟨q, hq, hname⟩ := h name ⟨p, hperm.mem_iff.mp hp, hname⟩
  exact ⟨q, hperm.mem_iff.mpr hq, hname⟩

theorem references_perm (hperm : order.Perm grammar) : order.references = grammar.references :=
  funext fun name => (hperm.flatMap_right Production.names).count_eq name

theorem page_perm (h : grammar.WellFormed) (hclosed : grammar.Closed) (hperm : order.Perm grammar) :
    order.page = grammar.page := by
  have hsection : order.hasSection = grammar.hasSection := by
    unfold hasSection
    rw [references_perm hperm]
  unfold page
  rw [if_pos (isClosed_iff.mpr (hclosed.perm hperm)), if_pos (isClosed_iff.mpr hclosed), hsection,
    inOrder_perm h hperm, inOrder_perm h (.refl _),
    Production.draw_congr (find?_perm hperm h.distinct)]

theorem documentIn_perm {table counted sorted : List Production} (h : grammar.WellFormed)
    (hclosed : grammar.Closed) (htable : table.Perm grammar) (hcounted : counted.Perm grammar)
    (hperm : sorted.Perm grammar)
    (hsorted : sorted.Pairwise fun p q => p.position.offset ≤ q.position.offset) :
    Grammar.documentIn table counted sorted = grammar.page.map Page.html := by
  have hfind := find?_perm htable h.distinct
  have hnames : ∀ name ∈ counted.flatMap Production.names, (find? table name).isSome := by
    intro name hname
    rw [hfind]
    exact find?_isSome.mpr (hclosed name
      (mem_names.mp ((hcounted.flatMap_right Production.names).mem_iff.mp hname)))
  have hshown : (grammar.filter fun p => !(0 < 0 + (counted.flatMap Production.names).count p.name
      && p.terminal?.isSome)) = grammar.filter grammar.hasSection := by
    refine List.filter_congr fun p _ => ?_
    have hcount := congrFun (references_perm hcounted) p.name
    unfold references at hcount
    rw [hcount, hasSection, references, Nat.zero_add]
    generalize (grammar.flatMap Production.names).count p.name = n
    cases p.terminal? <;> cases n <;> rfl
  unfold documentIn page
  rw [foldlM_tally _ _ hnames, h.eq_of_sorted hperm hsorted, Production.draw_congr hfind,
    if_pos (isClosed_iff.mpr hclosed), inOrder_perm h (.refl _)]
  dsimp only [Option.bind_eq_bind, Option.bind_some]
  rw [hshown, Option.map_eq_bind]
  rfl

/-- In which order the productions of an accepted grammar are gone through shows nowhere. Whether
they are verified and compiled in the same order or in different ones, the parser is the same, as is
the table behind it. Whatever order references are counted in, and however productions are sorted by
their places, the document is the same. It has its sections in the order in which their productions
stand in the text. -/
theorem order_irrelevant {filename text start : Bytes}
    (hparse : Grammar.parse filename text = .ok grammar)
    (hverify : grammar.verify start = .ok ()) :
    (∀ verified filled : List Production, verified.Perm grammar → filled.Perm grammar →
      fill (fun _ => none) filled = .ok grammar.definitions ∧
      compileIn verified filled start = .ok (grammar.parser start)) ∧
    (∀ order : Grammar, order.Perm grammar →
      order.compile start = .ok (grammar.parser start)) ∧
    ∃ page, (∀ order : Grammar, order.Perm grammar → order.page = some page) ∧
      (∀ table counted sorted : List Production, table.Perm grammar → counted.Perm grammar →
        sorted.Perm grammar →
        sorted.Pairwise (fun p q => p.position.offset ≤ q.position.offset) →
        Grammar.documentIn table counted sorted = some page.html) ∧
      ∃ shown : List Production, shown.Sublist grammar ∧
        Ascending (shown.map Production.position) ∧
        page.map Section.name = shown.map Production.name ∧
        grammar.Shows shown page.html := by
  have hgrammar := wellFormed_of_parse hparse
  have hclosed := (reliable_verify grammar start hverify).closed
  obtain ⟨page, hpage, hnames, hshows⟩ := exists_page hgrammar hclosed
  refine ⟨fun verified filled hverified hfilled => ?_, fun order hperm => ?_, page,
    fun order hperm => ?_, fun table counted sorted htable hcounted hperm hsorted => ?_, ?_⟩
  · exact ⟨fill_perm hgrammar.distinct hverify hfilled,
      compileIn_perm hgrammar.distinct hverify hverified hfilled⟩
  · exact compile_perm hgrammar.distinct hverify hperm
  · rw [page_perm hgrammar hclosed hperm, hpage]
  · rw [documentIn_perm hgrammar hclosed htable hcounted hperm hsorted, hpage]
    rfl
  · have hsub : (grammar.filter grammar.hasSection).Sublist grammar := List.filter_sublist
    exact ⟨_, hsub, hgrammar.ascending.sublist (hsub.map _), hnames, hshows⟩

theorem order_irrelevant_treeText : ∃ grammar page, Grammar.parse [] treeText = .ok grammar ∧
    grammar.verify "Tree" = .ok () ∧
    Grammar.compile grammar.reverse "Tree" = .ok (grammar.parser "Tree") ∧
    Grammar.page grammar.reverse = some page ∧
    grammar.documentIn grammar.reverse grammar = some page.html := by
  obtain ⟨grammar, hparse, hverify⟩ : ∃ grammar, Grammar.parse [] treeText = .ok grammar ∧
    (grammar.verify "Tree").toBool = true := exists_of_any (by decide +kernel)
  have hverify : grammar.verify "Tree" = .ok () := by
    cases h : grammar.verify "Tree" with
    | ok => rfl
    | error =>
      rw [h] at hverify
      cases hverify
  obtain ⟨_, hcompile, page, hpage, hdocument, _⟩ := order_irrelevant hparse hverify
  have hperm := List.reverse_perm grammar
  refine ⟨grammar, page, hparse, hverify, hcompile _ hperm, hpage _ hperm, ?_⟩
  refine hdocument _ _ _ (.refl _) hperm (.refl _) ?_
  have hascending := List.pairwise_map.mp (wellFormed_of_parse hparse).ascending
  exact hascending.imp Int.le_of_lt

end Grammar

end Backtrack.Ebnf
