import Mathlib.Data.List.Infix
import Backtrack.Proofs.Ebnf.Drawing

/-!
# The links of a page

Wherever the text of a page has the start of a link, the name of a production with a section stands
behind it. That holds of the text as a whole, whatever terminals are drawn on the page: a terminal is
quoted, and inside quotes a double quote has a backslash before it, so the start of a link cannot
appear there.

This module does NOT say what a browser makes of a page.
-/

namespace Backtrack

/-- A character is written as its one byte in ASCII, or with bytes none of which is of ASCII. -/
theorem Utf8.encode_cases (c : Char) :
    (∃ b, encode c = [b] ∧ c = Char.ofNat b.toNat) ∨ ∀ b ∈ encode c, 128 ≤ b.toNat := by
  have hread := strict?_encode c []
  rw [List.append_nil] at hread
  cases hcode : encode c with
  | nil => exact absurd hcode (encode_ne_nil c)
  | cons b more =>
    rw [hcode] at hread
    rcases strict?_cases hread with ⟨_, hc, hlength⟩ | ⟨hb, _, n, hlength, _, hwide⟩
    · rw [List.length_eq_zero_iff.mp (Nat.succ.inj hlength)]
      exact .inl ⟨b, rfl, hc⟩
    · rw [← Nat.succ.inj hlength, List.take_length] at hwide
      exact .inr (List.forall_mem_cons.mpr ⟨hb, hwide⟩)

namespace Text

/-- Texts in which a double quote stands only behind a backslash. -/
inductive Escaped : Bytes → Prop where
  | nil : Escaped []
  | plain {b : UInt8} {t : Bytes} (hquote : b ≠ 34) (hbackslash : b ≠ 92) (h : Escaped t) :
    Escaped (b :: t)
  | pair (b : UInt8) {t : Bytes} (h : Escaped t) : Escaped (92 :: b :: t)

theorem Escaped.append {s t : Bytes} (hs : Escaped s) (ht : Escaped t) : Escaped (s ++ t) := by
  induction hs with
  | nil => exact ht
  | plain hquote hbackslash _ ih => exact .plain hquote hbackslash ih
  | pair b _ ih => exact .pair b ih

theorem escaped_of_forall {t : Bytes} (h : ∀ b ∈ t, b ≠ 34 ∧ b ≠ 92) : Escaped t := by
  induction t with
  | nil => exact .nil
  | cons b t ih =>
    obtain ⟨⟨hquote, hbackslash⟩, h⟩ := List.forall_mem_cons.mp h
    exact .plain hquote hbackslash (ih h)

theorem escaped_hex (width n : Nat) : Escaped (Bytes.hex width n) := by
  have hdigit : ∀ d < 16, Bytes.hexDigit d ≠ 34 ∧ Bytes.hexDigit d ≠ 92 := by decide
  refine escaped_of_forall fun b hb => ?_
  obtain ⟨i, _, rfl⟩ := List.mem_map.mp hb
  exact hdigit _ (Nat.mod_lt _ (by decide))

theorem escaped_encode {c : Char} (hquote : c ≠ '\x22') (hbackslash : c ≠ '\\') :
    Escaped (Utf8.encode c) := by
  refine escaped_of_forall fun b hb => ?_
  rcases Utf8.encode_cases c with ⟨d, hcode, rfl⟩ | hwide
  · rw [hcode] at hb
    obtain rfl := List.mem_singleton.mp hb
    constructor <;> rintro rfl
    · exact hquote rfl
    · exact hbackslash rfl
  · have := hwide b hb
    constructor <;> rintro rfl <;> contradiction

theorem escaped_quotedChar (c : Char) : Escaped (quotedChar '\x22' c) := by
  unfold quotedChar
  split
  · exact .pair _ .nil
  rename_i hplain
  simp only [Bool.or_eq_true, decide_eq_true_eq, not_or] at hplain
  split
  · exact escaped_encode hplain.1 hplain.2
  split
  · exact .pair _ .nil
  split
  · exact .pair 120 (escaped_hex 2 _)
  split
  · exact .pair 117 (escaped_hex 4 _)
  · exact .pair 85 (escaped_hex 8 _)

theorem escaped_quotedItem (item : Utf8.Item) : Escaped (quotedItem '\x22' item) := by
  unfold quotedItem
  split
  · exact escaped_quotedChar item.char
  · refine .pair 120 ?_
    induction item.bytes with
    | nil => exact .nil
    | cons b bytes ih => exact (escaped_hex 2 b.toNat).append ih

theorem exists_quoted (text : Bytes) : ∃ inside, Escaped inside ∧
    quoted text = 34 :: (inside ++ [34]) := by
  refine ⟨(Utf8.items text).flatMap (quotedItem '\x22'), ?_, rfl⟩
  induction Utf8.items text with
  | nil => exact .nil
  | cons item items ih => exact (escaped_quotedItem item).append ih

/-- Among escaped text, a text with a quote in it but no backslash does not start, unless it goes on
as what stands behind the closing quote. -/
theorem Escaped.not_prefix {s w t : Bytes} (h : Escaped s) (hquote : 34 ∉ w) (hbackslash : 92 ∉ w) :
    ¬ w ++ [34, 35] <+: s ++ 34 :: 41 :: t := by
  induction w generalizing s with
  | nil =>
    cases h with
    | nil => simp
    | plain hquote => simp [Ne.symm hquote]
    | pair => simp
  | cons b w ih =>
    obtain ⟨hb, hquote⟩ := List.ne_and_not_mem_of_not_mem_cons hquote
    obtain ⟨hb', hbackslash⟩ := List.ne_and_not_mem_of_not_mem_cons hbackslash
    cases h with
    | nil => simp [Ne.symm hb]
    | plain _ _ h =>
      exact fun hprefix => ih h hquote hbackslash (List.cons_prefix_cons.mp hprefix).2
    | pair => simp [Ne.symm hb']

end Text

namespace Ebnf

/-- What stands before the name that a link leads to. -/
def linkMark : Bytes := "\x7bhref:\"#"

/-- Whether all links of a text lead to one of some names. -/
def LinksInto (names : List Bytes) (text : Bytes) : Prop :=
  ∀ rest, linkMark ++ rest <:+ text → ∃ name ∈ names, name ++ [34] <+: rest

variable {names : List Bytes} {s t : Bytes}

theorem LinksInto.nil : LinksInto names [] := fun _ h => nomatch List.suffix_nil.mp h

theorem LinksInto.cons {b : UInt8} (hb : ¬ linkMark <+: b :: t) (ht : LinksInto names t) :
    LinksInto names (b :: t) := by
  intro rest h
  rcases List.suffix_cons_iff.mp h with heq | h
  · exact absurd ⟨rest, heq⟩ hb
  · exact ht rest h

/-- There is no link where braces open blocks of lines only. -/
theorem LinksInto.append_blocks (hs : ∀ u ∈ s.tails, 123 ∈ u.head? → [123, 10] <+: u)
    (ht : LinksInto names t) : LinksInto names (s ++ t) := by
  induction s with
  | nil => exact ht
  | cons b s ih =>
    rw [List.tails_cons] at hs
    obtain ⟨hb, hs⟩ := List.forall_mem_cons.mp hs
    refine .cons (fun h => ?_) (ih hs)
    obtain ⟨rfl, hrest⟩ := List.cons_prefix_cons.mp h
    obtain ⟨rest, rfl⟩ := (List.cons_prefix_cons.mp (hb rfl)).2
    exact absurd (List.cons_prefix_cons.mp hrest).1 (by decide)

theorem LinksInto.append (hs : 123 ∉ s) (ht : LinksInto names t) : LinksInto names (s ++ t) :=
  .append_blocks (fun _ hu hb => absurd ((List.mem_tails _ _).mp hu |>.subset
    (List.mem_of_mem_head? hb)) hs) ht

theorem LinksInto.link {name : Bytes} (hname : name ∈ names) (hbrace : 123 ∉ name)
    (ht : LinksInto names t) : LinksInto names (linkMark ++ (name ++ 34 :: t)) := by
  intro rest h
  rcases List.suffix_cons_iff.mp h with heq | h
  · refine ⟨name, hname, t, ?_⟩
    rw [List.append_cancel_left heq, List.append_assoc]
    rfl
  · have hname := (ht.append (show 123 ∉ [34] by decide)).append hbrace
    exact hname.append (show 123 ∉ linkMark.tail by decide) rest h

/-- A quoted text has no links in it. -/
theorem LinksInto.quoted (text : Bytes) (ht : LinksInto names (")" ++ t)) :
    LinksInto names (Text.quoted text ++ (")" ++ t)) := by
  obtain ⟨inside, hinside, hquoted⟩ := Text.exists_quoted text
  have hclose : LinksInto names ("\"" ++ (")" ++ t)) := ht.append (by decide)
  rw [hquoted, List.cons_append, List.append_assoc]
  clear hquoted
  have hother : ∀ {b : UInt8} {s : Bytes}, b ≠ 123 → ¬ linkMark <+: b :: s :=
    fun hb h => hb (List.cons_prefix_cons.mp h).1.symm
  -- A brace would have to be followed by what cannot start in the escaped text behind it.
  have hstart : ∀ {b : UInt8} {s : Bytes}, Text.Escaped s →
      ¬ linkMark <+: b :: (s ++ 34 :: 41 :: t) := fun hs h =>
    hs.not_prefix (w := "href:") (by decide) (by decide) (List.cons_prefix_cons.mp h).2
  refine .cons (hother (by decide)) ?_
  induction hinside with
  | nil => exact hclose
  | plain _ _ h ih => exact .cons (hstart h) ih
  | pair b h ih => exact .cons (hother (by decide)) (.cons (hstart h) ih)

theorem LinksInto.terminal (text : Bytes) (ht : LinksInto names t) :
    LinksInto names ("Terminal(" ++ Text.quoted text ++ ")" ++ t) := by
  rw [List.append_assoc, List.append_assoc]
  exact (LinksInto.quoted _ (ht.append (by decide))).append (by decide)

theorem LinksInto.call {opening : Bytes} (hopening : 123 ∉ opening)
    (hs : ∀ {t}, LinksInto names t → LinksInto names (s ++ t)) (ht : LinksInto names t) :
    LinksInto names (opening ++ s ++ ")" ++ t) := by
  rw [List.append_assoc, List.append_assoc]
  exact (hs (ht.append (by decide))).append hopening

theorem Identifier.brace {text : Bytes} (h : Identifier text) : 123 ∉ text := by
  obtain ⟨cs, rfl, hcs⟩ := h
  intro hmem
  obtain ⟨c, hc, hmem⟩ := List.mem_flatMap.mp hmem
  rcases Utf8.encode_cases c with ⟨b, hcode, rfl⟩ | hwide
  · rw [hcode] at hmem
    obtain rfl := List.mem_singleton.mp hmem
    have hbrace : continuesIdentifier '\x7b' = false := by decide +kernel
    exact Bool.false_ne_true (hbrace.symm.trans (hcs _ hc))
  · exact absurd (hwide 123 hmem) (by decide)

section Scripts

variable {grammar : Grammar} {headings : List Bytes}

mutual

/-- The links of a script lead to headings, and so do those of what stands behind it. -/
theorem Scripted.linksInto (hbraces : ∀ name ∈ headings, 123 ∉ name) : {e : Expression} →
    {script : Bytes} → Scripted grammar headings e script → ∀ {t}, LinksInto headings t →
      LinksInto headings (script ++ t)
  | _, _, .link _ h, t, ht => by
    have hmark : (", \x7bhref:\"#" : Bytes) = ", " ++ linkMark := by decide
    have hclose : ("\"\x7d)" : Bytes) = 34 :: "\x7d)" := by decide
    rw [hmark, hclose]
    simp only [List.append_assoc, List.cons_append]
    have hlink := LinksInto.link h (hbraces _ h) (ht.append (show 123 ∉ ("\x7d)" : Bytes) by decide))
    exact .append (by decide) <| .append (by decide) <| .append (hbraces _ h) <|
      .append (by decide) <| .append (by decide) hlink
  | _, _, .inline _ _ _ _ _ h, _, ht => h.linksInto hbraces ht
  | _, _, .token _, _, ht => .terminal _ ht
  | _, _, .range _ _, _, ht => .terminal _ ht
  | _, _, .group _ h, _, ht => h.linksInto hbraces ht
  | _, _, .option _ h, _, ht => .call (by decide) (h.linksInto hbraces) ht
  | _, _, .repetition _ h, _, ht => .call (by decide) (h.linksInto hbraces) ht
  | _, _, .sequence h, _, ht => .call (by decide) (h.linksInto hbraces) ht
  | _, _, .alternative h, _, ht => .call (by decide) (h.linksInto hbraces) ht

theorem AllScripted.linksInto (hbraces : ∀ name ∈ headings, 123 ∉ name) : {es : List Expression} →
    {scripts : List Bytes} → AllScripted grammar headings es scripts →
      ∀ {t}, LinksInto headings t → LinksInto headings (Bytes.join ", " scripts ++ t)
  | _, _, .nil, _, ht => ht
  | _, _, .cons h hs, t, ht => by
    have hmore := hs.linksInto hbraces ht
    cases hs with
    | nil => exact h.linksInto hbraces ht
    | cons =>
      rw [Bytes.join, List.append_assoc, List.append_assoc]
      · exact h.linksInto hbraces (hmore.append (by decide))
      · nofun

end

/-- The links of a section lead to headings, and so do those of what stands behind it. -/
theorem Production.Presented.linksInto (hbraces : ∀ name ∈ headings, 123 ∉ name) {p : Production}
    (hname : 123 ∉ p.name) {text : Bytes} (h : p.Presented grammar headings text)
    (ht : LinksInto headings t) : LinksInto headings (text ++ t) := by
  obtain ⟨hscript⟩ := h
  have hsection : ∀ {script}, p.Scripted grammar headings script → LinksInto headings
      (script ++ (").addTo();\n</script>\n\n" ++ t)) := by
    intro script hscript
    have ht := ht.append (show 123 ∉ (").addTo();\n</script>\n\n" : Bytes) by decide)
    cases hscript with
    | skip => exact ht.append (by decide)
    | body _ h => exact h.linksInto hbraces ht
  simp only [List.append_assoc]
  refine .append (by decide) <| .append (by decide) <| .append hname <| .append (by decide) <|
    .append (by decide) <| .append hname <| .append (by decide) (hsection hscript)

theorem Grammar.Shows.linksInto {shown : List Production} (hnames : ∀ p ∈ shown, Identifier p.name)
    {document : Bytes} (h : grammar.Shows shown document) :
    LinksInto (shown.map Production.name) document := by
  obtain ⟨hall⟩ := h
  have hbraces : ∀ name ∈ shown.map Production.name, 123 ∉ name :=
    List.forall_mem_map.mpr fun p hp => (hnames p hp).brace
  rw [List.append_assoc]
  -- The style sheet has braces, each at the end of a line.
  refine .append_blocks (by decide +kernel) ?_
  generalize shown.map Production.name = headings at hall hbraces
  induction hall with
  | nil => exact LinksInto.nil.append (s := "</body>\n") (by decide)
  | cons hp _ ih =>
    obtain ⟨hname, hnames⟩ := List.forall_mem_cons.mp hnames
    rw [List.flatten_cons, List.append_assoc]
    exact hp.linksInto hbraces hname.brace (ih hnames)

end Scripts

namespace Grammar

variable {grammar : Grammar}

/-- A grammar that is read without flaws, and refers to productions only, is drawn. Its productions
have a section each, in their order, with their name for the heading and a script that draws them,
but for those that are nothing but a terminal and are referred to. The document has these sections
between its start and its end, and every link in it, wherever one stands in the text, leads to the
heading of a section. -/
theorem page_of_parse {filename text : Bytes} (hparse : Grammar.parse filename text = .ok grammar)
    (hclosed : grammar.Closed) :
    ∃ (page : Page) (shown : List Production), grammar.page = some page ∧
      page.map Section.name = shown.map Production.name ∧
      shown.Sublist grammar ∧ (shown.map Production.name).Nodup ∧
      (∀ p ∈ grammar, p.name ∈ shown.map Production.name ↔
        ¬(p.IsTerminal ∧ grammar.Mentions p.name)) ∧
      grammar.Shows shown page.html ∧
      LinksInto (shown.map Production.name) page.html := by
  have hgrammar := wellFormed_of_parse hparse
  obtain ⟨page, hpage, hnames, hshows⟩ := exists_page hgrammar hclosed
  refine ⟨page, _, hpage, hnames, List.filter_sublist, ?_, fun p hp => ?_, hshows, ?_⟩
  · exact hgrammar.distinct.sublist (List.filter_sublist.map _)
  · exact (mem_headings hgrammar hp).trans hasSection_iff
  · exact hshows.linksInto fun p hp => hgrammar.identifiers p (List.mem_filter.mp hp).1

theorem page_of_parse_treeText : ∃ grammar page shown, Grammar.parse [] treeText = .ok grammar ∧
    grammar.Closed ∧ grammar.page = some page ∧ grammar.Shows shown page.html ∧
    LinksInto (shown.map Production.name) page.html := by
  obtain ⟨grammar, hparse, hclosed⟩ : ∃ grammar, Grammar.parse [] treeText = .ok grammar ∧
    grammar.isClosed = true := exists_of_any (by decide +kernel)
  have hclosed := isClosed_iff.mp hclosed
  obtain ⟨page, shown, hpage, _, _, _, _, hshows, hlinks⟩ := page_of_parse hparse hclosed
  exact ⟨grammar, page, shown, hparse, hclosed, hpage, hshows, hlinks⟩

end Grammar

end Ebnf

end Backtrack
