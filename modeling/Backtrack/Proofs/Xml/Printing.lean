import Mathlib.Data.List.Chain
import Mathlib.Data.List.TakeWhile
import Backtrack.Proofs.Xml.Documents

/-!
# Printed XML is read back

What is printed of an element is a document of this very element. The line ends and the indentation
that the printer adds are either ignored or trimmed off a text; so the printed children are followed
along the list, with the characters that are still waiting for the next tag. A text without a
character is a blank line when it is printed, so it adds to what is waiting and leaves no node.
-/

namespace Backtrack.Xml

open Text

def Node.isText : Node → Bool
  | .element .. => false
  | .text _ => true

/-- A value that does not contain both kinds of quotes. -/
def Quotable (v : Bytes) : Prop := Bytes.ascii '\x27' ∉ v ∨ Bytes.ascii '\x22' ∉ v

/-- A text that is its own trimmed form, without the start of a tag. -/
structure Plain (t : Bytes) : Prop where
  valid : Utf8.isValid t = true
  nonempty : t ≠ []
  free : Bytes.ascii '<' ∉ t
  trimmed : Text.trim t = t

/-- A tree whose printed form says everything about it: names are names, those of the attributes of
one element differ, every text is plain, and no text stands next to another. -/
inductive Node.Printable : Node → Prop where
  | element {name : Bytes} {attributes : List (Bytes × Bytes)} {children : List Node}
      (hname : Name name) (hattributes : ∀ a ∈ attributes, Name a.1 ∧ Quotable a.2)
      (hdistinct : (attributes.map Prod.fst).Nodup)
      (happart : children.IsChain fun n n' => ¬ (n.isText = true ∧ n'.isText = true))
      (h : ∀ n ∈ children, Printable n) : Printable (.element name attributes children)
  | text {t : Bytes} (h : Plain t) : Printable (.text t)

def Node.isVoid : Node → Bool
  | .element .. => false
  | .text t => t.isEmpty

mutual

def Node.pruned : Node → Node
  | .element name attributes children => .element name attributes (prunedAll children)
  | .text t => .text t

/-- Some nodes without the empty texts among them and below them. -/
def prunedAll : List Node → List Node
  | [] => []
  | n :: ns => if n.isVoid then prunedAll ns else n.pruned :: prunedAll ns

end

/-- An element without the empty texts below it. -/
def Element.pruned (e : Element) : Element := ⟨e.name, e.attributes, prunedAll e.children⟩

theorem toNode_pruned (e : Element) : e.pruned.toNode = e.toNode.pruned := by
  unfold Element.toNode
  rw [Node.pruned]
  rfl

theorem prunedAll_void {n : Node} (h : n.isVoid = true) (ns : List Node) :
    prunedAll (n :: ns) = prunedAll ns := by
  rw [prunedAll, if_pos h]

theorem prunedAll_cons {n : Node} (h : n.isVoid = false) (ns : List Node) :
    prunedAll (n :: ns) = n.pruned :: prunedAll ns := by
  rw [prunedAll, if_neg (Bool.eq_false_iff.mp h)]

theorem Node.Printable.plain {t : Bytes} (h : Printable (.text t)) : Plain t := by
  cases h with
  | text h => exact h

theorem Node.Printable.not_void {n : Node} (h : n.Printable) : n.isVoid = false := by
  cases h with
  | element => rfl
  | text h => exact Bool.eq_false_iff.mpr fun hempty => h.nonempty (List.isEmpty_iff.mp hempty)

theorem prunedAll_eq_self {ns : List Node} (h : ∀ n ∈ ns, n.isVoid = false ∧ n.pruned = n) :
    prunedAll ns = ns := by
  induction ns with
  | nil => rw [prunedAll]
  | cons n ns ih =>
    obtain ⟨hn, hns⟩ := List.forall_mem_cons.mp h
    rw [prunedAll_cons hn.1, hn.2, ih hns]

/-- There is nothing to prune in a tree that can be printed. -/
theorem Node.Printable.pruned_eq {n : Node} (h : n.Printable) : n.pruned = n := by
  induction h with
  | element _ _ _ _ hprintable ih =>
    rw [Node.pruned, prunedAll_eq_self fun n hn => ⟨(hprintable n hn).not_void, ih n hn⟩]
  | text => rw [Node.pruned]

section Tags

variable {name : Bytes} {attributes : List (Bytes × Bytes)}

theorem attribute_print {a : Bytes × Bytes} (hname : Name a.1) (hvalue : Quotable a.2) :
    Attribute a (printAttribute a) := by
  obtain ⟨key, value⟩ := a
  have hkey : Spaced key (" " ++ key) := ⟨" ", [], by decide, rfl, by simp⟩
  have hassoc : ∀ quote : Bytes, " " ++ key ++ "=" ++ quote ++ value ++ quote =
      " " ++ key ++ Bytes.ascii '=' :: (quote ++ value ++ quote) := by
    intro quote
    simp
    rfl
  unfold printAttribute
  dsimp only
  split
  · rename_i hdouble
    have hsingle : Bytes.ascii '\x27' ∉ value := by
      rcases hvalue with h | h
      · exact h
      · exact absurd (by simpa using hdouble) h
    rw [hassoc]
    exact .mk hname hkey (.mk (.inl rfl) hsingle) (spaced_self _)
  · rename_i hdouble
    rw [hassoc]
    exact .mk hname hkey (.mk (.inr rfl) (by simpa using hdouble)) (spaced_self _)

theorem attributes_print (h : ∀ a ∈ attributes, Name a.1 ∧ Quotable a.2) :
    Attributes attributes (attributes.flatMap printAttribute) := by
  induction attributes with
  | nil => exact .nil
  | cons a as ih =>
    obtain ⟨ha, hrest⟩ := List.forall_mem_cons.mp h
    exact .cons (attribute_print ha.1 ha.2) (ih hrest)

theorem opening_print (hname : Name name) (h : ∀ a ∈ attributes, Name a.1 ∧ Quotable a.2)
    (hdistinct : (attributes.map Prod.fst).Nodup) (selfClosing : Bool) :
    Opening ⟨name, attributes, selfClosing⟩
      ("<" ++ name ++ attributes.flatMap printAttribute ++ tagClosing selfClosing) := by
  have hend : HeadNot isNameByte (attributes.flatMap printAttribute) := by
    cases attributes with
    | nil => exact headNot_nil
    | cons a as => exact headNot_cons.mpr (by decide)
  have hopening := @Opening.mk name _ [] attributes selfClosing hname (attributes_print h) hend
    hdistinct rfl
  rw [List.append_nil] at hopening
  exact hopening

end Tags

section Stretches

variable {cs ds : List Char} {t : Bytes}

theorem exists_blank_chars (h : t.all isSpaceByte = true) :
    ∃ cs, cs.all Term.isSpace = true ∧ Utf8.ofChars cs = t := by
  induction t with
  | nil => exact ⟨[], rfl, rfl⟩
  | cons b t ih =>
    rw [List.all_cons, Bool.and_eq_true] at h
    obtain ⟨cs, hcs, rfl⟩ := ih h.2
    have haccepts : Reader.accepts Term.isSpace b = true := by rw [Reader.accepts_isSpace, h.1]
    simp only [Reader.accepts, Bool.and_eq_true, decide_eq_true_eq] at haccepts
    refine ⟨Char.ofNat b.toNat :: cs, ?_, ?_⟩
    · rw [List.all_cons, haccepts.2, hcs]
      rfl
    · have hencode := Utf8.take_of_strict? (Utf8.strict?_ascii haccepts.1 [])
      rw [Utf8.ofChars, List.flatMap_cons, ← hencode]
      rfl

theorem not_mem_blanks (h : cs.all Term.isSpace = true) : Bytes.ascii '<' ∉ Utf8.ofChars cs := by
  intro hmem
  obtain ⟨c, hc, hmem⟩ := List.mem_flatMap.mp hmem
  have hspace := List.all_eq_true.mp h c hc
  simp only [Term.isSpace, Bool.or_eq_true, decide_eq_true_eq] at hspace
  rcases hspace with ((rfl | rfl) | rfl) | rfl <;> exact absurd hmem (by decide)

theorem not_mem_append (hcs : Bytes.ascii '<' ∉ Utf8.ofChars cs)
    (hds : Bytes.ascii '<' ∉ Utf8.ofChars ds) : Bytes.ascii '<' ∉ Utf8.ofChars (cs ++ ds) := by
  rw [Utf8.ofChars_append, List.mem_append]
  rintro (h | h)
  · exact hcs h
  · exact hds h

theorem characterData_chars (h : Bytes.ascii '<' ∉ Utf8.ofChars cs) :
    CharacterData cs (Utf8.ofChars cs) := by
  have hlast := CharacterData.last h
  rwa [Utf8.chars_ofChars] at hlast

theorem trimBlanks_append_blank (hds : ds.all Term.isSpace = true) :
    trimBlanks (cs ++ ds) = trimBlanks cs := by
  have hblank : ∀ c ∈ ds, Text.isBlank c.toNat = true :=
    fun c hc => isBlank_of_isSpace (List.all_eq_true.mp hds c hc)
  have hreverse : ∀ c ∈ ds.reverse, Text.isBlank c.toNat = true :=
    fun c hc => hblank c (List.mem_reverse.mp hc)
  simp only [trimBlanks, List.dropWhile_append]
  split
  · rename_i hempty
    rw [List.dropWhile_eq_nil_iff.mpr hblank, List.isEmpty_iff.mp hempty]
  · rw [List.reverse_append, List.dropWhile_append_of_pos hreverse]

theorem textNodes_append_blank (hds : ds.all Term.isSpace = true) :
    textNodes (cs ++ ds) = textNodes cs := by
  unfold textNodes
  rw [List.all_append, hds, Bool.and_true, trim_ofChars, trim_ofChars, trimBlanks_append_blank hds]

theorem Plain.not_blank (h : Plain t) : (Utf8.chars t).all Term.isSpace = false := by
  apply Bool.eq_false_iff.mpr
  intro hblank
  have htrim : trimBlanks (Utf8.chars t ++ []) = trimBlanks [] := trimBlanks_append hblank
  rw [List.append_nil] at htrim
  apply h.nonempty
  rw [← h.trimmed, ← Utf8.ofChars_chars h.valid, trim_ofChars, htrim]
  rfl

theorem textNodes_plain (h : Plain t) (hcs : cs.all Term.isSpace = true)
    (hds : ds.all Term.isSpace = true) : textNodes (cs ++ (Utf8.chars t ++ ds)) = [.text t] := by
  rw [← List.append_assoc, textNodes_append_blank hds, textNodes_append hcs h.not_blank,
    ← trim_ofChars, Utf8.ofChars_chars h.valid, h.trimmed]

end Stretches

section Children

/-- What a printed node is in the language: an element, or the text itself. -/
def Spelled : Node → Bytes → Prop
  | .element name attributes children, t => Written ⟨name, attributes, children⟩ t
  | .text s, t => t = s

def Lined (n m : Node) : Prop :=
  ∀ indent : Bytes, indent.all isSpaceByte = true →
    ∃ t, Spelled m t ∧ ∀ after, n.printBefore indent after = indent ++ (t ++ ("\n" ++ after))

theorem lined_text (t : Bytes) : Lined (.text t) (.text t) := by
  intro indent _
  refine ⟨_, rfl, ?_⟩
  intro after
  rw [Node.printBefore]

theorem lineEnd_blank : ['\n'].all Term.isSpace = true := by decide

theorem ofChars_lineEnd : Utf8.ofChars ['\n'] = Bytes.ofString "\n" := by decide

/-- Printed children in front of a closing tag, behind characters that wait for the next tag. -/
theorem content_print {ns : List Node} (h : ∀ n ∈ ns, Lined n n.pruned)
    (hprintable : ∀ n ∈ prunedAll ns, n.Printable)
    (hapart : (prunedAll ns).IsChain fun n n' => ¬ (n.isText = true ∧ n'.isText = true))
    {inside indent : Bytes}
    (hinside : inside.all isSpaceByte = true) (hindent : indent.all isSpaceByte = true)
    {cs : List Char} (hcs : Bytes.ascii '<' ∉ Utf8.ofChars cs)
    (hfirst : ∀ n ∈ (prunedAll ns).head?, n.isText = true → cs.all Term.isSpace = true) :
    ∃ t, Content Written (textNodes cs ++ prunedAll ns) t ∧ ∀ after,
      Utf8.ofChars cs ++ Node.printAllBefore inside ns (indent ++ after) = t ++ after := by
  obtain ⟨is, his, rfl⟩ := exists_blank_chars hinside
  induction ns generalizing cs with
  | nil =>
    obtain ⟨ds, hds, rfl⟩ := exists_blank_chars hindent
    refine ⟨Utf8.ofChars (cs ++ ds), ?_, ?_⟩
    · rw [prunedAll, List.append_nil, ← textNodes_append_blank hds]
      exact .last (characterData_chars (not_mem_append hcs (not_mem_blanks hds)))
    · intro after
      rw [Utf8.ofChars_append, List.append_assoc]
      rfl
  | cons n ns ih =>
    obtain ⟨hn, hns⟩ := List.forall_mem_cons.mp h
    obtain ⟨t, hspelled, ht⟩ := hn _ hinside
    have hblanks := not_mem_append hcs (not_mem_blanks his)
    cases hvoid : n.isVoid with
    | true =>
      -- An empty text is a blank line, which waits for the next tag with what waits already.
      rw [prunedAll_void hvoid] at hprintable hapart hfirst ⊢
      have hline : (is ++ ['\n']).all Term.isSpace = true := by
        rw [List.all_append, his]
        rfl
      have hwaiting := not_mem_append hcs (not_mem_blanks hline)
      obtain ⟨v, hv, hrest⟩ := ih hns hprintable hapart hwaiting fun n' hn' htext => by
        rw [List.all_append, hfirst n' hn' htext, hline]
        rfl
      rw [textNodes_append_blank hline] at hv
      refine ⟨v, hv, ?_⟩
      intro after
      cases n with
      | element => cases hvoid
      | text s =>
        obtain rfl := List.isEmpty_iff.mp hvoid
        obtain rfl : t = [] := by rwa [Node.pruned] at hspelled
        rw [Node.printAllBefore, ht, ← hrest]
        simp only [Utf8.ofChars_append, List.append_assoc, List.nil_append, ofChars_lineEnd]
    | false =>
      rw [prunedAll_cons hvoid] at hprintable hapart hfirst ⊢
      obtain ⟨hprint, hprints⟩ := List.forall_mem_cons.mp hprintable
      rw [List.isChain_cons] at hapart
      cases n with
      | element name attributes children =>
        obtain ⟨v, hv, hrest⟩ := ih hns hprints hapart.2 (not_mem_blanks lineEnd_blank)
          fun _ _ _ => lineEnd_blank
        rw [textNodes_blank lineEnd_blank, List.nil_append] at hv
        rw [Node.pruned] at hspelled ⊢
        refine ⟨Utf8.ofChars (cs ++ is) ++ t ++ v, ?_, ?_⟩
        · rw [← textNodes_append_blank his]
          exact .more (characterData_chars hblanks) hspelled hv
        · intro after
          rw [Node.printAllBefore, ht, ← ofChars_lineEnd, hrest, Utf8.ofChars_append]
          simp only [List.append_assoc]
      | text s =>
        -- The text waits for the next tag, together with the blanks around it.
        rw [Node.pruned] at hspelled hprint hapart hfirst ⊢
        have hplain := hprint.plain
        have hblank := hfirst (.text s) rfl rfl
        have htext := Utf8.ofChars_chars hplain.valid
        have hfree : Bytes.ascii '<' ∉ Utf8.ofChars (Utf8.chars s) := by
          rw [htext]
          exact hplain.free
        have hwaiting :=
          not_mem_append hblanks (not_mem_append hfree (not_mem_blanks lineEnd_blank))
        obtain ⟨v, hv, hrest⟩ := ih hns hprints hapart.2 hwaiting
          fun n' hn' htext => absurd ⟨rfl, htext⟩ (hapart.1 n' hn')
        have hbefore : (cs ++ is).all Term.isSpace = true := by
          rw [List.all_append, hblank, his]
          rfl
        rw [textNodes_plain hplain hbefore lineEnd_blank] at hv
        refine ⟨v, ?_, ?_⟩
        · rw [textNodes_blank hblank]
          exact hv
        · intro after
          obtain rfl : t = s := hspelled
          rw [Node.printAllBefore, ht, ← hrest]
          simp only [Utf8.ofChars_append, List.append_assoc, htext, ofChars_lineEnd]

mutual

/-- A printed node is what is left of it without the empty texts. -/
theorem Node.lined (n : Node) (h : n.pruned.Printable) : Lined n n.pruned := by
  cases n with
  | text t =>
    rw [Node.pruned]
    exact lined_text t
  | element name attributes children =>
    have hall := fun hprintable => linedAll children hprintable
    rw [Node.pruned] at h ⊢
    cases h with
    | element hname hattributes hdistinct hapart hprintable =>
      intro indent hindent
      have htag := opening_print hname hattributes hdistinct
      cases children with
      | nil =>
        rw [prunedAll]
        refine ⟨_, .empty (htag true), ?_⟩
        intro after
        rw [Node.printBefore]
        simp only [List.append_assoc]
        rfl
      | cons child rest =>
        have hinside : (indent ++ Bytes.ofString "\t").all isSpaceByte = true := by
          rw [List.all_append, hindent]
          decide
        obtain ⟨v, hv, hrest⟩ := content_print (hall hprintable) hprintable hapart hinside hindent
          (not_mem_blanks lineEnd_blank) fun _ _ _ => lineEnd_blank
        rw [textNodes_blank lineEnd_blank, List.nil_append] at hv
        refine ⟨_, .full (htag false) hv (@Closing.mk name [] rfl), ?_⟩
        intro after
        rw [Node.printBefore]
        simp only [List.append_assoc]
        rw [← hrest, ofChars_lineEnd, Node.printAllBefore]
        rfl

theorem linedAll (ns : List Node) (h : ∀ n ∈ prunedAll ns, n.Printable) :
    ∀ n ∈ ns, Lined n n.pruned := by
  cases ns with
  | nil => nofun
  | cons n ns =>
    have hn := n.lined
    have hns := linedAll ns
    cases hvoid : n.isVoid with
    | true =>
      rw [prunedAll_void hvoid] at h
      refine List.forall_mem_cons.mpr ⟨?_, hns h⟩
      cases n with
      | element => cases hvoid
      | text t =>
        rw [Node.pruned]
        exact lined_text t
    | false =>
      rw [prunedAll_cons hvoid] at h
      obtain ⟨hprint, hprints⟩ := List.forall_mem_cons.mp h
      exact List.forall_mem_cons.mpr ⟨hn hprint, hns hprints⟩

end

theorem Node.Printable.lined {n : Node} (h : n.Printable) : Lined n n := by
  have hlined := n.lined (h.pruned_eq.symm ▸ h)
  rwa [h.pruned_eq] at hlined

end Children

/-- A tree that can be printed is read back from its printed form. -/
theorem parse_print {e : Element} (h : e.toNode.Printable) :
    (parse (e.toNode.print []) []).result = .ok (.ok e) := by
  obtain ⟨t, ht, hprint⟩ := h.lined [] rfl
  rw [Node.print, hprint]
  have hbehind : Ignored (Bytes.ofString "\n" ++ []) := .space (by decide) .nil
  have hdocument := Document.mk .nil (.inl rfl) .nil ht hbehind
  exact parse_of_document hdocument

/-- An element with a value that contains double quotes, and with text of two lines between two
elements. -/
def letter : Element where
  name := "letter"
  attributes := [("to", "\"b\""), ("from", "c's")]
  children := [.element "date" [] [], .text "Dear\n é", .element "b:x" [] [.text "x"]]

theorem letter_printable : letter.toNode.Printable := by
  have hplain : Plain "Dear\n é" ∧ Plain "x" := by
    constructor <;> exact ⟨by decide, by decide, by decide, by decide⟩
  have hdate : Node.Printable (.element "date" [] []) :=
    .element (.mk (by decide) (by decide)) (by simp) (by decide) .nil (by simp)
  have hlast : Node.Printable (.element "b:x" [] [.text "x"]) :=
    .element (.mk (by decide) (by decide)) (by simp) (by decide) (.singleton _)
      (by simpa using .text hplain.2)
  apply Node.Printable.element (.mk (by decide) (by decide))
  · refine List.forall_mem_cons.mpr ⟨⟨.mk (by decide) (by decide), .inl (by decide)⟩, ?_⟩
    refine List.forall_mem_cons.mpr ⟨⟨.mk (by decide) (by decide), .inr (by decide)⟩, ?_⟩
    simp
  · decide
  · exact .cons_cons (by decide) (.cons_cons (by decide) (.singleton _))
  · refine List.forall_mem_cons.mpr ⟨hdate, List.forall_mem_cons.mpr ⟨.text hplain.1, ?_⟩⟩
    simpa using hlast

theorem parse_print_letter : letter.toNode.Printable ∧
    (parse (letter.toNode.print []) []).result = .ok (.ok letter) :=
  ⟨letter_printable, parse_print letter_printable⟩

end Backtrack.Xml
