import Backtrack.Proofs.Xml.Elements

/-!
# Reading documents

A declaration is read to its first question mark, and what is ignored around the parts of a document
is read as far as it goes. With that the meaning of `parse` without options is the language of
documents.
-/

namespace Backtrack.Xml

open Regex Text

section Declarations

variable {β : Type} {text : Array UInt8} {rd : Reader Rule.type} {s t u : Bytes}
  {k : Bytes → Option β} {x : β}

theorem declarationPattern_eq : declarationPattern =
    followed (.seq (followed (.check .beginText) ['<', '?', 'x', 'm', 'l'])
      (.star true (.chars (.complement (.single '?'))))) ['?', '>'] := rfl

theorem of_tries_declaration (ht : t <:+ text.toList)
    (h : tries text (placeOf text t) declarationPattern t k = some x) :
    ∃ declaration u, Declaration declaration ∧ t = declaration ++ u ∧ k u = some x := by
  rw [declarationPattern_eq, tries_followed, tries_seq, tries_followed, tries_check_start ht] at h
  obtain ⟨v, rfl, hv⟩ := of_triesWord (by decide) ht h
  have hsuffix := suffix_of_append ht
  obtain ⟨inside, w, rfl, hinside, hw⟩ := of_tries_star_broad (broad_other (by decide)) hsuffix hv
  obtain ⟨u, rfl, hu⟩ := of_triesWord (by decide) (suffix_of_append hsuffix) hw
  refine ⟨"<?xml" ++ inside ++ "?>", u, .mk ?_, ?_, hu⟩
  · intro hmem
    exact (contains_other (by decide)).mp (hinside _ hmem) rfl
  · rw [List.append_assoc, List.append_assoc]
    rfl

theorem tries_declaration {declaration : Bytes} (ht : declaration ++ u <:+ text.toList)
    (h : Declaration declaration) (hu : k u = some x) :
    tries text (placeOf text (declaration ++ u)) declarationPattern (declaration ++ u) k =
      some x := by
  obtain ⟨hfree⟩ := h
  rename_i inside
  rw [declarationPattern_eq, tries_followed, tries_seq, tries_followed, tries_check_start ht]
  rw [List.append_assoc, List.append_assoc] at ht ⊢
  have hsuffix := suffix_of_append ht
  apply triesWord_all (by decide) ht
  apply tries_star_broad (broad_other (by decide)) hsuffix
  · intro b hb
    apply (contains_other (by decide)).mpr
    rintro rfl
    exact hfree hb
  · apply headNot_cons.mpr
    decide
  · exact triesWord_all (by decide) (suffix_of_append hsuffix) hu

theorem Declaration.atTag (h : Declaration t) (u : Bytes) : AtTag (t ++ u) := by
  obtain ⟨_⟩ := h
  exact atTag_cons (by decide)

theorem reads_declaration (h : Declaration t) (hs : t ++ u <:+ rd.bytes) :
    rd.Reads (.pattern declarationPattern) (t ++ u) t u :=
  (Reader.reads_pattern rfl).mpr ⟨hs, rfl, tries_declaration hs h rfl⟩

theorem sound_declaration : rd.Sound (.pattern declarationPattern) fun _ t => Declaration t := by
  intro s v u h
  obtain ⟨hs, rfl, htries⟩ := (Reader.reads_pattern rfl).mp h
  obtain ⟨declaration, u', hdeclaration, heq, hu⟩ := of_tries_declaration hs htries
  obtain rfl := Option.some.inj hu
  obtain rfl := List.append_cancel_right heq
  exact ⟨v, rfl, hdeclaration⟩

theorem rejects_declaration {e : Element} (h : Written e t) (hs : t ++ u <:+ rd.bytes) :
    rd.Rejects (.pattern declarationPattern) (t ++ u) := by
  apply Reader.rejects_pattern rfl hs
  apply Option.eq_none_iff_forall_ne_some.mpr
  intro v hv
  obtain ⟨_, _, ⟨_⟩, heq, _⟩ := of_tries_declaration hs hv
  obtain ⟨b, r, rfl, hb⟩ := h.head
  rw [(List.cons.inj (List.cons.inj heq).2).1] at hb
  exact absurd hb (by decide)

end Declarations

section Documents

variable {rd : Reader Rule.type} {s t u text : Bytes} {e : Element}

theorem sound_ignored : rd.Sound ignored fun _ t => Ignored t := by
  intro s ws u h
  obtain ⟨_, ⟨cs, hcs, hcrossing⟩, _⟩ := reads_ignored.mp ⟨ws, h⟩
  exact ignored_of_crossing hcrossing hcs

theorem complete_ignored (h : Ignored t) (hs : t ++ u <:+ rd.bytes) (hu : AtTag u) :
    ∃ ws, rd.Reads ignored (t ++ u) ws u := by
  obtain ⟨cs, hcs, hcrossing⟩ := crossing_of_ignored h u
  exact reads_ignored.mpr ⟨hs, ⟨cs, hcs, hcrossing⟩, hu.headNot (by decide), hu.notComment⟩

theorem Ignored.append (ht : Ignored t) (hu : Ignored u) : Ignored (t ++ u) := by
  induction ht with
  | nil => exact hu
  | space hb _ ih => exact .space hb ih
  | comment hc _ ih =>
    rw [List.append_assoc]
    exact .comment hc ih

theorem atTag_nil : AtTag [] := ⟨headNot_nil, by decide⟩

/-- What stands before the element of a document: a declaration at most. -/
def prolog : Grammar (List Unit × Bytes) :=
  ignored.and ((Term.pattern declarationPattern).optional [])

def root : Grammar Element := (ignored.skipLeft element).skipRight ignored

theorem document_eq : document = prolog.skipLeft root := rfl

theorem sound_root (h : rd.Sound element Written) (hread : rd.Reads root s e u) :
    ∃ before t behind, s = before ++ t ++ behind ++ u ∧ Ignored before ∧ Written e t ∧
      Ignored behind := by
  obtain ⟨_, m, hm, hend⟩ := Reader.reads_skipRight.mp hread
  obtain ⟨_, w, hstart, he⟩ := Reader.reads_skipLeft.mp hm
  obtain ⟨before, rfl, hbefore⟩ := sound_ignored hstart
  obtain ⟨t, rfl, ht⟩ := h he
  obtain ⟨behind, rfl, hbehind⟩ := sound_ignored hend
  exact ⟨before, t, behind, by simp, hbefore, ht, hbehind⟩

theorem reads_root {l : Nat} (h : Complete rd element Written l) {before behind : Bytes}
    (hbefore : Ignored before) (ht : Written e t) (hl : t.length ≤ l) (hbehind : Ignored behind)
    (hs : before ++ (t ++ behind) <:+ rd.bytes) :
    rd.Reads root (before ++ (t ++ behind)) e [] := by
  obtain ⟨ws, hignored⟩ := complete_ignored hbefore hs (ht.atTag behind)
  have he := h ht hl hignored.finish
  have hsuffix : behind ++ [] <:+ rd.bytes := by
    rw [List.append_nil]
    exact he.finish
  obtain ⟨ws', hrest⟩ := complete_ignored hbehind hsuffix atTag_nil
  rw [List.append_nil] at hrest
  exact Reader.reads_skipRight.mpr ⟨ws', _, Reader.reads_skipLeft.mpr ⟨ws, _, hignored, he⟩, hrest⟩

theorem sound_prolog {v : List Unit × Bytes} (h : rd.Reads prolog s v u) :
    ∃ before declaration, s = before ++ declaration ++ u ∧ Ignored before ∧
      (declaration = [] ∨ Declaration declaration) := by
  obtain ⟨_, hstart, hoptional⟩ := Reader.reads_and.mp h
  obtain ⟨before, rfl, hbefore⟩ := sound_ignored hstart
  rcases Reader.reads_optional.mp hoptional with hread | ⟨_, rfl, _⟩
  · obtain ⟨declaration, rfl, hdeclaration⟩ := sound_declaration hread
    exact ⟨before, declaration, (List.append_assoc _ _ _).symm, hbefore, .inr hdeclaration⟩
  · exact ⟨before, [], by simp, hbefore, .inl rfl⟩

theorem sound_document (h : rd.Sound element Written) : rd.Sound document Document := by
  intro s e u hread
  rw [document_eq] at hread
  obtain ⟨v, m, hprolog, hroot⟩ := Reader.reads_skipLeft.mp hread
  obtain ⟨before, declaration, rfl, hbefore, hdeclaration⟩ := sound_prolog hprolog
  obtain ⟨between, t, behind, rfl, hbetween, ht, hbehind⟩ := sound_root h hroot
  exact ⟨_, by simp, .mk hbefore hdeclaration hbetween ht hbehind⟩

theorem document_of_parse (h : (parse text []).result = .ok (.ok e)) : Document e text := by
  obtain ⟨t, heq, ht⟩ := sound_document (sound_element _ _) (Definitions.evaluate_eq_ok.mp h)
  rw [List.append_nil] at heq
  rw [heq]
  exact ht

theorem reads_document {l : Nat} (h : Complete rd element Written l) (hdocument : Document e s)
    (hs : s <:+ rd.bytes) (hl : s.length ≤ l) : rd.Reads document s e [] := by
  obtain ⟨hbefore, hdeclaration, hbetween, ht, hbehind⟩ := hdocument
  rename_i before declaration between t behind
  simp only [List.length_append] at hl
  simp only [List.append_assoc] at hs ⊢
  rw [document_eq]
  rcases hdeclaration with rfl | hdeclaration
  · -- Without a declaration what is ignored on both sides of it is taken at once.
    rw [List.nil_append] at hs ⊢
    rw [← List.append_assoc] at hs ⊢
    obtain ⟨ws, hignored⟩ := complete_ignored (hbefore.append hbetween) hs (ht.atTag behind)
    have hreject := rejects_declaration ht hignored.finish
    have hroot := reads_root h .nil ht (by omega) hbehind hignored.finish
    apply Reader.reads_skipLeft.mpr ⟨(ws, []), _, Reader.reads_and.mpr ⟨_, hignored, ?_⟩, hroot⟩
    exact Reader.reads_optional.mpr (.inr ⟨hreject, rfl, rfl⟩)
  · obtain ⟨ws, hignored⟩ := complete_ignored hbefore hs (hdeclaration.atTag _)
    have hread := reads_declaration hdeclaration hignored.finish
    have hroot := reads_root h hbetween ht (by omega) hbehind hread.finish
    apply Reader.reads_skipLeft.mpr
      ⟨(ws, declaration), _, Reader.reads_and.mpr ⟨_, hignored, ?_⟩, hroot⟩
    exact Reader.reads_optional.mpr (.inl hread)

theorem parse_of_document (h : Document e text) : (parse text []).result = .ok (.ok e) := by
  let input := Input.ofBytes [] text
  have hdepth : text.length ≤ Definitions.depth 1 input := by
    have hsize : input.size = text.length := rfl
    unfold Definitions.depth
    omega
  have hs : text <:+ (definitions.reader (Definitions.depth 1 input) input).bytes :=
    List.suffix_rfl
  exact Definitions.evaluate_eq_ok.mpr (reads_document (complete_element _ _) h hs hdepth)

/-- Parsing without options succeeds exactly for the texts that are documents, and yields the tree
that the language gives to the text. -/
theorem parse_iff_document (text : Bytes) (e : Element) :
    (parse text []).result = .ok (.ok e) ↔ Document e text :=
  ⟨document_of_parse, parse_of_document⟩

end Documents

end Backtrack.Xml
