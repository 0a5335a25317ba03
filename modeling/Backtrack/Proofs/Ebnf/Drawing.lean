import Mathlib.Data.List.Nodup
import Backtrack.Ebnf.Railroad
import Backtrack.Proofs.Ebnf.Verification
import Backtrack.Proofs.Ebnf.WellFormed

/-!
# The pages of grammars

Where every name that a grammar refers to has a production, the grammar is drawn as a page. On it
each production has one section, but for those that are nothing but a terminal and are referred to:
these are drawn wherever that happens. Counting references and drawing them are two walks over the
same expressions; they agree because what is drawn in the place of a reference has been counted as
one. The document of a page is told here as a language of its own, which knows nothing of diagrams.

This module does NOT say how a document is shown, which is up to the library that its scripts call.
-/

namespace Backtrack.Ebnf

/-- Whether an expression refers to a name, in itself or in its parts. -/
inductive Expression.Mentions (name : Bytes) : Expression → Prop where
  | name (position : Position) : Mentions name (.name position name)
  | group (position : Position) {body : Expression} (h : Mentions name body) :
    Mentions name (.group position body)
  | option (position : Position) {body : Expression} (h : Mentions name body) :
    Mentions name (.option position body)
  | repetition (position : Position) {body : Expression} (h : Mentions name body) :
    Mentions name (.repetition position body)
  | sequence {parts : List Expression} {e : Expression} (he : e ∈ parts) (h : Mentions name e) :
    Mentions name (.sequence parts)
  | alternative {parts : List Expression} {e : Expression} (he : e ∈ parts) (h : Mentions name e) :
    Mentions name (.alternative parts)

def Grammar.Mentions (grammar : Grammar) (name : Bytes) : Prop :=
  ∃ p ∈ grammar, ∃ body ∈ p.body, body.Mentions name

/-- Whether every name that a grammar refers to has a production. -/
def Grammar.Closed (grammar : Grammar) : Prop :=
  ∀ name, grammar.Mentions name → ∃ p ∈ grammar, p.name = name

variable {grammar : Grammar} {name : Bytes}

mutual

/-- The names of an expression are those that it refers to. -/
theorem Expression.mem_names : (e : Expression) → (name ∈ e.names ↔ e.Mentions name)
  | .name position target => by
    refine List.mem_singleton.trans ⟨?_, ?_⟩
    · rintro rfl
      exact .name position
    · rintro ⟨⟩
      rfl
  | .token _ | .range .. | .bad .. => ⟨nofun, nofun⟩
  | .group position body =>
    body.mem_names.trans ⟨.group position, fun | .group _ h => h⟩
  | .option position body =>
    body.mem_names.trans ⟨.option position, fun | .option _ h => h⟩
  | .repetition position body =>
    body.mem_names.trans ⟨.repetition position, fun | .repetition _ h => h⟩
  | .sequence parts =>
    (mem_namesOfAll parts).trans
      ⟨fun ⟨_, he, h⟩ => .sequence he h, fun | .sequence he h => ⟨_, he, h⟩⟩
  | .alternative parts =>
    (mem_namesOfAll parts).trans
      ⟨fun ⟨_, he, h⟩ => .alternative he h, fun | .alternative he h => ⟨_, he, h⟩⟩

theorem mem_namesOfAll : (es : List Expression) →
    (name ∈ Expression.names.namesOfAll es ↔ ∃ e ∈ es, e.Mentions name)
  | [] => ⟨nofun, nofun⟩
  | e :: es => by
    rw [Expression.names.namesOfAll, List.mem_append, e.mem_names, mem_namesOfAll es]
    simp only [List.mem_cons, exists_eq_or_imp]

end

theorem Grammar.mem_names : name ∈ grammar.flatMap Production.names ↔ grammar.Mentions name := by
  refine List.mem_flatMap.trans (exists_congr fun p => and_congr_right fun _ => ?_)
  unfold Production.names
  cases p.body with
  | none => exact ⟨nofun, nofun⟩
  | some body => exact (Expression.mem_names body).trans (by simp)

theorem Grammar.references_pos : 0 < grammar.references name ↔ grammar.Mentions name :=
  List.count_pos_iff.trans Grammar.mem_names

theorem Grammar.find?_isSome : (grammar.find? name).isSome ↔ ∃ p ∈ grammar, p.name = name := by
  unfold find?
  simp

theorem Grammar.isClosed_iff : grammar.isClosed = true ↔ grammar.Closed := by
  unfold isClosed Closed
  rw [List.all_eq_true]
  exact forall_congr' fun name => by rw [Grammar.mem_names, Grammar.find?_isSome]

inductive Expression.IsTerminal : Expression → Prop where
  | token (t : Terminal) : IsTerminal (.token t)
  | range (first last : Terminal) : IsTerminal (.range first last)

def Production.IsTerminal (p : Production) : Prop := ∃ body ∈ p.body, body.IsTerminal

theorem Expression.isSome_terminal? {e : Expression} : e.terminal?.isSome ↔ e.IsTerminal := by
  refine ⟨fun h => ?_, ?_⟩
  · unfold terminal? at h
    split at h
    · exact .token _
    · exact .range _ _
    · cases h
  · rintro (_ | _) <;> rfl

theorem Production.isSome_terminal? {p : Production} : p.terminal?.isSome ↔ p.IsTerminal := by
  unfold terminal? IsTerminal
  cases p.body with
  | none => exact ⟨nofun, nofun⟩
  | some body => exact Expression.isSome_terminal?.trans (by simp)

/-- A production has no section exactly if it is nothing but a terminal and is referred to. -/
theorem Grammar.hasSection_iff {p : Production} :
    grammar.hasSection p = true ↔ ¬(p.IsTerminal ∧ grammar.Mentions p.name) := by
  rw [← Production.isSome_terminal?, ← references_pos]
  unfold hasSection
  cases p.terminal? <;> simp

def Grammar.headings (grammar : Grammar) : List Bytes :=
  (grammar.filter grammar.hasSection).map Production.name

theorem Grammar.mem_headings (h : grammar.WellFormed) {p : Production} (hp : p ∈ grammar) :
    p.name ∈ grammar.headings ↔ grammar.hasSection p = true := by
  refine List.mem_map.trans ⟨fun ⟨q, hq, hname⟩ => ?_, fun hsection => ?_⟩
  · obtain ⟨hq, hsection⟩ := List.mem_filter.mp hq
    rwa [← List.inj_on_of_nodup_map h.distinct hq hp hname]
  · exact ⟨p, List.mem_filter.mpr ⟨hp, hsection⟩, rfl⟩

theorem isPrintable_of_continuesIdentifier {c : Char} (h : continuesIdentifier c = true) :
    Text.isPrintable c.toNat = true := by
  simp only [continuesIdentifier, startsIdentifier, Bool.or_eq_true, decide_eq_true_eq] at h
  rcases h with (rfl | h) | h
  · decide +kernel
  · unfold Text.isLetter at h
    unfold Text.isPrintable
    generalize Text.category c.toNat = category at h
    cases category <;> simp_all
  · unfold Text.isDecimalDigit at h
    unfold Text.isPrintable
    rw [of_decide_eq_true h]
    simp

theorem quotedChar_of_continuesIdentifier {c : Char} (h : continuesIdentifier c = true) :
    Text.quotedChar '\x22' c = Utf8.encode c := by
  have hquote : continuesIdentifier '\x22' = false := by decide +kernel
  have hbackslash : continuesIdentifier '\\' = false := by decide +kernel
  have hplain : ¬((c = '\x22' || c = '\\') = true) := by
    simp only [Bool.or_eq_true, decide_eq_true_eq]
    rintro (rfl | rfl)
    · rw [hquote] at h
      cases h
    · rw [hbackslash] at h
      cases h
  rw [Text.quotedChar, if_neg hplain, if_pos (isPrintable_of_continuesIdentifier h)]

/-- An identifier has no escapes, so a reference to it can be made by its text. -/
theorem Identifier.quoted {text : Bytes} (h : Identifier text) :
    Text.quoted text = "\"" ++ text ++ "\"" := by
  obtain ⟨cs, rfl, hcs⟩ := h
  have hitems : (cs.map Utf8.Item.ofChar).flatMap (Text.quotedItem '\x22') = Utf8.ofChars cs := by
    induction cs with
    | nil => rfl
    | cons c cs ih =>
      obtain ⟨hc, hcs⟩ := List.forall_mem_cons.mp hcs
      rw [List.map_cons, List.flatMap_cons, ih hcs]
      exact congrArg (· ++ Utf8.ofChars cs) (quotedChar_of_continuesIdentifier hc)
  rw [Text.quoted, Utf8.items_ofChars, hitems]

mutual

/-- The scripts that draw an expression in a document with some headings. A reference is drawn as a
link to a heading, or in full if it is to a terminal that has none. -/
inductive Scripted (grammar : Grammar) (headings : List Bytes) : Expression → Bytes → Prop where
  | link (position : Position) {target : Bytes} (h : target ∈ headings) :
    Scripted grammar headings (.name position target)
      ("NonTerminal(" ++ ("\"" ++ target ++ "\"") ++ ", \x7bhref:\"#" ++ target ++ "\"\x7d)")
  | inline (position : Position) {p : Production} (hp : p ∈ grammar) (hname : p.name ∉ headings)
      {body : Expression} (hbody : body ∈ p.body) (hterminal : body.IsTerminal) {script : Bytes}
      (h : Scripted grammar headings body script) :
    Scripted grammar headings (.name position p.name) script
  | token (t : Terminal) :
    Scripted grammar headings (.token t) ("Terminal(" ++ Text.quoted t.text ++ ")")
  | range (first last : Terminal) :
    Scripted grammar headings (.range first last)
      ("Terminal(" ++ Text.quoted (first.text ++ "…" ++ last.text) ++ ")")
  | group (position : Position) {body : Expression} {script : Bytes}
      (h : Scripted grammar headings body script) :
    Scripted grammar headings (.group position body) script
  | option (position : Position) {body : Expression} {script : Bytes}
      (h : Scripted grammar headings body script) :
    Scripted grammar headings (.option position body) ("Optional(" ++ script ++ ")")
  | repetition (position : Position) {body : Expression} {script : Bytes}
      (h : Scripted grammar headings body script) :
    Scripted grammar headings (.repetition position body) ("ZeroOrMore(" ++ script ++ ")")
  | sequence {parts : List Expression} {scripts : List Bytes}
      (h : AllScripted grammar headings parts scripts) :
    Scripted grammar headings (.sequence parts) ("Sequence(" ++ Bytes.join ", " scripts ++ ")")
  | alternative {parts : List Expression} {scripts : List Bytes}
      (h : AllScripted grammar headings parts scripts) :
    Scripted grammar headings (.alternative parts) ("Choice(0, " ++ Bytes.join ", " scripts ++ ")")

inductive AllScripted (grammar : Grammar) (headings : List Bytes) :
    List Expression → List Bytes → Prop where
  | nil : AllScripted grammar headings [] []
  | cons {e : Expression} {es : List Expression} {script : Bytes} {scripts : List Bytes}
      (h : Scripted grammar headings e script) (hs : AllScripted grammar headings es scripts) :
    AllScripted grammar headings (e :: es) (script :: scripts)

end

/-- The script of a production; one for the empty text is passed by. -/
inductive Production.Scripted (grammar : Grammar) (headings : List Bytes) (p : Production) :
    Bytes → Prop where
  | skip (h : p.body = none) : Scripted grammar headings p "Skip()"
  | body {e : Expression} {script : Bytes} (he : p.body = some e)
      (h : Ebnf.Scripted grammar headings e script) : Scripted grammar headings p script

/-- The section of a production has its name for the heading, which is also what links lead to. -/
inductive Production.Presented (grammar : Grammar) (headings : List Bytes) (p : Production) :
    Bytes → Prop where
  | mk {script : Bytes} (h : p.Scripted grammar headings script) :
    Presented grammar headings p
      ("<h1 id=" ++ ("\"" ++ p.name ++ "\"") ++ ">" ++ p.name ++ "</h1>\n<script>\nDiagram(" ++
        script ++ ").addTo();\n</script>\n\n")

/-- The documents of a grammar that have sections for some of its productions, in their order. -/
inductive Grammar.Shows (grammar : Grammar) (shown : List Production) : Bytes → Prop where
  | mk {sections : List Bytes}
      (h : List.Forall₂ (Production.Presented grammar (shown.map Production.name)) shown sections) :
    Shows grammar shown (documentStart ++ sections.flatten ++ "</body>\n")

theorem Expression.scripted_of_terminal? {headings : List Bytes} {e : Expression} {d : Diagram}
    (h : e.terminal? = some d) : e.IsTerminal ∧ Scripted grammar headings e d.script := by
  unfold terminal? at h
  split at h
  · cases h
    exact ⟨.token _, .token _⟩
  · cases h
    exact ⟨.range _ _, .range _ _⟩
  · cases h

section Closed

variable (hgrammar : grammar.WellFormed) (hclosed : grammar.Closed)
include hgrammar hclosed

/-- A reference that a production makes is drawn: it has been counted, so what it leads to has a
section unless it is a terminal. -/
theorem exists_script_reference (position : Position) {target : Bytes}
    (htarget : grammar.Mentions target) :
    ∃ d, grammar.drawReference target = some d ∧
      Scripted grammar grammar.headings (.name position target) d.script := by
  obtain ⟨p, hfind⟩ := Option.isSome_iff_exists.mp (Grammar.find?_isSome.mpr (hclosed _ htarget))
  obtain ⟨hp, rfl⟩ := Grammar.find?_name hfind
  unfold Grammar.drawReference
  rw [hfind]
  refine ⟨p.terminal?.getD (.link p.name), rfl, ?_⟩
  cases hterminal : p.terminal? with
  | none =>
    rw [Option.getD_none, Diagram.script, (hgrammar.identifiers p hp).quoted]
    refine .link position ((Grammar.mem_headings hgrammar hp).mpr ?_)
    rw [Grammar.hasSection, hterminal]
    rfl
  | some d =>
    obtain ⟨body, hbody, hd⟩ := Option.bind_eq_some_iff.mp hterminal
    obtain ⟨hbare, hscript⟩ := body.scripted_of_terminal? hd
    refine .inline position hp (fun hmem => ?_) hbody hbare hscript
    have hsection := (Grammar.mem_headings hgrammar hp).mp hmem
    exact Grammar.hasSection_iff.mp hsection ⟨⟨body, hbody, hbare⟩, htarget⟩

omit hgrammar hclosed in
theorem exists_scripts {headings : List Bytes} {es : List Expression}
    (h : ∀ e ∈ es, ∃ d, e.draw grammar = some d ∧ Scripted grammar headings e d.script) :
    ∃ ds, drawAll grammar es = some ds ∧ AllScripted grammar headings es (scripts ds) := by
  induction es with
  | nil => exact ⟨[], rfl, .nil⟩
  | cons e es ih =>
    obtain ⟨⟨d, hd, hscript⟩, h⟩ := List.forall_mem_cons.mp h
    obtain ⟨ds, hds, hall⟩ := ih h
    exact ⟨d :: ds, by simp [drawAll, hd, hds], .cons hscript hall⟩

/-- Whatever has been read whole is drawn. -/
theorem Expression.Whole.exists_script {e : Expression} (hwhole : e.Whole)
    (hnames : ∀ target, e.Mentions target → grammar.Mentions target) :
    ∃ d, e.draw grammar = some d ∧ Scripted grammar grammar.headings e d.script := by
  induction hwhole with
  | name position target =>
    exact exists_script_reference hgrammar hclosed position (hnames target (.name position))
  | token t => exact ⟨_, rfl, .token t⟩
  | range first last => exact ⟨_, rfl, .range first last⟩
  | group position _ ih =>
    obtain ⟨d, hd, hscript⟩ := ih fun target h => hnames target (.group position h)
    exact ⟨d, hd, .group position hscript⟩
  | option position _ ih =>
    obtain ⟨d, hd, hscript⟩ := ih fun target h => hnames target (.option position h)
    exact ⟨.optional d, by rw [draw, hd]; rfl, .option position hscript⟩
  | repetition position _ ih =>
    obtain ⟨d, hd, hscript⟩ := ih fun target h => hnames target (.repetition position h)
    exact ⟨.zeroOrMore d, by rw [draw, hd]; rfl, .repetition position hscript⟩
  | sequence _ ih =>
    obtain ⟨ds, hds, hall⟩ := exists_scripts fun e he =>
      ih e he fun target h => hnames target (.sequence he h)
    exact ⟨.sequence ds, by rw [draw, hds]; rfl, .sequence hall⟩
  | alternative _ ih =>
    obtain ⟨ds, hds, hall⟩ := exists_scripts fun e he =>
      ih e he fun target h => hnames target (.alternative he h)
    exact ⟨.choice ds, by rw [draw, hds]; rfl, .alternative hall⟩

/-- A production is drawn, and its section is written under its name. -/
theorem Production.exists_presented {p : Production} (hp : p ∈ grammar) :
    ∃ d, p.draw grammar = some d ∧
      p.Presented grammar grammar.headings (Section.html ⟨p.name, d⟩) := by
  have hpresented : ∀ {d : Diagram}, p.Scripted grammar grammar.headings d.script →
      p.Presented grammar grammar.headings (Section.html ⟨p.name, d⟩) := by
    intro d h
    rw [Section.html, (hgrammar.identifiers p hp).quoted]
    exact .mk h
  unfold Production.draw
  cases hbody : p.body with
  | none => exact ⟨.skip, rfl, hpresented (.skip hbody)⟩
  | some body =>
    obtain ⟨d, hd, hscript⟩ := (hgrammar.whole p hp body hbody).exists_script hgrammar hclosed
      fun target h => ⟨p, hp, body, hbody, h⟩
    exact ⟨d, hd, hpresented (.body hbody hscript)⟩

end Closed

namespace Grammar

/-- There is one way to sort productions that stand in different places. -/
theorem WellFormed.eq_of_sorted {sorted : List Production} (h : grammar.WellFormed)
    (hperm : sorted.Perm grammar)
    (hsorted : sorted.Pairwise fun p q => p.position.offset ≤ q.position.offset) :
    sorted = grammar := by
  have hascending := List.pairwise_map.mp h.ascending
  have hdistinct : (grammar.map fun p => p.position.offset).Nodup :=
    List.pairwise_map.mpr (hascending.imp Int.ne_of_lt)
  refine List.Perm.eq_of_pairwise ?_ hsorted (hascending.imp Int.le_of_lt) hperm
  intro p q hp hq hle hge
  exact List.inj_on_of_nodup_map hdistinct (hperm.mem_iff.mp hp) hq (Int.le_antisymm hle hge)

theorem inOrder_perm {order : Grammar} (h : grammar.WellFormed) (hperm : order.Perm grammar) :
    order.inOrder = grammar := by
  refine h.eq_of_sorted ((List.mergeSort_perm _ _).trans hperm) ?_
  refine (List.pairwise_mergeSort ?_ ?_ order).imp of_decide_eq_true
  · intro p q r hpq hqr
    exact decide_eq_true (Int.le_trans (of_decide_eq_true hpq) (of_decide_eq_true hqr))
  · intro p q
    simpa using Int.le_total p.position.offset q.position.offset

theorem exists_sections {headings : List Bytes} {ps : List Production}
    (h : ∀ p ∈ ps, ∃ d, p.draw grammar = some d ∧
      p.Presented grammar headings (Section.html ⟨p.name, d⟩)) :
    ∃ page : Page, (ps.mapM fun p => return ⟨p.name, ← p.draw grammar⟩) = some page ∧
      page.map Section.name = ps.map Production.name ∧
      List.Forall₂ (Production.Presented grammar headings) ps (page.map Section.html) := by
  induction ps with
  | nil => exact ⟨[], rfl, rfl, .nil⟩
  | cons p ps ih =>
    obtain ⟨⟨d, hd, hpresented⟩, h⟩ := List.forall_mem_cons.mp h
    obtain ⟨page, hpage, hnames, hall⟩ := ih h
    refine ⟨⟨p.name, d⟩ :: page, ?_, ?_, .cons hpresented hall⟩
    · rw [List.mapM_cons, hpage, hd]
      rfl
    · rw [List.map_cons, List.map_cons, hnames]

/-- The page of a grammar has the sections of its productions, in their order, and its document shows
them so. -/
theorem exists_page (hgrammar : grammar.WellFormed) (hclosed : grammar.Closed) :
    ∃ page, grammar.page = some page ∧
      page.map Section.name = grammar.headings ∧
      grammar.Shows (grammar.filter grammar.hasSection) page.html := by
  obtain ⟨page, hpage, hnames, hall⟩ := exists_sections fun p hp =>
    p.exists_presented hgrammar hclosed (List.mem_filter.mp hp).1
  refine ⟨page, ?_, hnames, ?_⟩
  · rw [Grammar.page, if_pos (isClosed_iff.mpr hclosed), inOrder_perm hgrammar (.refl _)]
    exact hpage
  · rw [Page.html, List.flatMap_def]
    exact .mk hall

theorem exists_of_any {filename text : Bytes} {condition : Grammar → Bool}
    (h : (Grammar.parse filename text).toOption.any condition = true) :
    ∃ grammar, Grammar.parse filename text = .ok grammar ∧ condition grammar = true := by
  cases hparse : Grammar.parse filename text with
  | ok grammar =>
    rw [hparse] at h
    exact ⟨grammar, rfl, h⟩
  | error message =>
    rw [hparse] at h
    cases h

/-- Trees of letters: `Tree = leaf | "(" Tree Tree ")" . leaf = "a" … "z" .` -/
def treeText : Bytes := "Tree=leaf|\"(\"Tree Tree\")\".leaf=\"a\"…\"z\"."

end Grammar

end Backtrack.Ebnf
