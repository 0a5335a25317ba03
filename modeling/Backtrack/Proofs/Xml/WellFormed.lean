import Backtrack.Proofs.Xml.Reprinting

/-!
# Well-formed trees

What holds of every element that is read, however deep it stands: names are names, no two of its
attributes have the same name, a value lacks one kind of quotes, a text is trimmed and has no tag in
it, and no two texts stand next to each other. So an attribute is found exactly under its name.

A text may be empty here; what follows from that for printing is a matter of its own.
-/

namespace Backtrack.Xml

open Text

variable {cs : List Char} {e e' : Element} {n n' : Node} {ns : List Node} {s t u : Bytes}

/-- A text without the start of a tag that trimming leaves as it is. -/
structure Trimmed (t : Bytes) : Prop where
  valid : Utf8.isValid t = true
  free : Bytes.ascii '<' ∉ t
  trimmed : Text.trim t = t

/-- Not both of two nodes are texts. -/
def Apart (n n' : Node) : Prop := ¬ (n.isText = true ∧ n'.isText = true)

/-- What holds of a single element, whatever holds of those below it. -/
structure Element.WellFormed (e : Element) : Prop where
  name : Name e.name
  keys : ∀ a ∈ e.attributes, Name a.1
  values : ∀ a ∈ e.attributes, Quotable a.2
  distinct : (e.attributes.map Prod.fst).Nodup
  texts : ∀ t, .text t ∈ e.children → Trimmed t
  apart : e.children.IsChain Apart

theorem Element.WellFormed.attribute?_eq_some (h : e.WellFormed) {key value : Bytes} :
    e.attribute? key = some value ↔ (key, value) ∈ e.attributes := by
  unfold attribute?
  constructor
  · intro hlookup
    obtain ⟨before, behind, heq, _⟩ := List.lookup_eq_some_iff.mp hlookup
    rw [heq]
    simp
  · intro hmem
    obtain ⟨before, behind, heq⟩ := List.append_of_mem hmem
    have hdistinct := h.distinct
    rw [heq, List.map_append, List.map_cons] at hdistinct
    have hbefore := (List.nodup_middle.mp hdistinct).notMem
    apply List.lookup_eq_some_iff.mpr ⟨before, behind, heq, ?_⟩
    intro a ha
    apply bne_iff_ne.mpr
    rintro rfl
    exact hbefore (List.mem_append_left _ (List.mem_map.mpr ⟨a, ha, rfl⟩))

theorem Element.attribute?_eq_none {key : Bytes} :
    e.attribute? key = none ↔ key ∉ e.attributes.map Prod.fst := by
  unfold attribute?
  rw [List.lookup_eq_none_iff, List.mem_map]
  constructor
  · rintro h ⟨a, ha, rfl⟩
    simpa using h a ha
  · intro h a ha
    rw [bne_iff_ne]
    rintro rfl
    exact h ⟨a, ha, rfl⟩

theorem trimmed_trim (h : CharacterData cs t) : Trimmed (Text.trim (Utf8.ofChars cs)) := by
  by_cases hempty : Text.trim (Utf8.ofChars cs) = []
  · rw [hempty]
    exact ⟨rfl, List.not_mem_nil, rfl⟩
  · have hplain := plain_trim h hempty
    exact ⟨hplain.valid, hplain.free, hplain.trimmed⟩

/-- Children of which every element, and every element below, is well formed. -/
structure Arranged (ns : List Node) : Prop where
  texts : ∀ t, .text t ∈ ns → Trimmed t
  apart : ns.IsChain Apart
  below : ∀ e : Element, e.toNode ∈ nodesOfAll ns → e.WellFormed

theorem toNode_inj (h : e.toNode = e'.toNode) : e = e' := by
  obtain ⟨_, _, _⟩ := e
  obtain ⟨_, _, _⟩ := e'
  cases h
  rfl

theorem arranged_nil : Arranged [] := by
  refine ⟨by simp, .nil, ?_⟩
  rw [nodesOfAll]
  simp

theorem Arranged.element (h : ∀ e' : Element, e'.toNode ∈ e.toNode.nodes → e'.WellFormed)
    (hns : Arranged ns) (hfirst : ∀ n ∈ ns.head?, Apart e.toNode n) : Arranged (e.toNode :: ns) := by
  refine ⟨?_, hns.apart.cons hfirst, ?_⟩
  · intro t ht
    rcases List.mem_cons.mp ht with heq | ht
    · cases heq
    · exact hns.texts t ht
  · intro e' he'
    rw [nodesOfAll] at he'
    rcases List.mem_append.mp he' with he' | he'
    · exact h e' he'
    · exact hns.below e' he'

/-- The text between two tags adds one text at most, in front of a tag or at the end. -/
theorem Arranged.textNodes (h : CharacterData cs t) (hns : Arranged ns)
    (hfirst : ∀ n ∈ ns.head?, n.isText = false) : Arranged (textNodes cs ++ ns) := by
  unfold Xml.textNodes
  split
  · exact hns
  · refine ⟨?_, hns.apart.cons ?_, ?_⟩
    · intro t ht
      rcases List.mem_cons.mp ht with heq | ht
      · cases heq
        exact trimmed_trim h
      · exact hns.texts t ht
    · intro n hn hboth
      rw [hfirst n hn] at hboth
      simp at hboth
    · intro e he
      rw [List.singleton_append, nodesOfAll, Node.nodes, List.singleton_append] at he
      rcases List.mem_cons.mp he with heq | he
      · cases heq
      · exact hns.below e he

theorem wellFormed_of_opening {tag : OpenTag} (htag : Opening tag t) (hns : Arranged ns) :
    ∀ e : Element, e.toNode ∈ (Node.element tag.name tag.attributes ns).nodes → e.WellFormed := by
  intro e he
  rw [Node.nodes] at he
  rcases List.mem_cons.mp he with heq | he
  · obtain rfl : e = ⟨tag.name, tag.attributes, ns⟩ := toNode_inj heq
    obtain ⟨hname, hattributes, _, hdistinct, _⟩ := htag
    have hprintable := hattributes.printable
    exact ⟨hname, fun a ha => (hprintable a ha).1, fun a ha => (hprintable a ha).2, hdistinct,
      hns.texts, hns.apart⟩
  · exact hns.below e he

/-- Every element of a tree that a text is written for is well formed. -/
theorem Written.wellFormed (h : Written e t) :
    ∀ e' : Element, e'.toNode ∈ e.toNode.nodes → e'.WellFormed := by
  refine @Written.rec (fun e _ _ => ∀ e' : Element, e'.toNode ∈ e.toNode.nodes → e'.WellFormed)
    (fun ns _ _ => Arranged ns) ?empty ?full ?last ?more e t h
  case empty =>
    intro name t attributes htag
    exact wellFormed_of_opening htag arranged_nil
  case full =>
    intro name t inside u attributes children htag _ _ hchildren
    exact wellFormed_of_opening htag hchildren
  case last =>
    intro cs t hdata
    have hlast := arranged_nil.textNodes hdata (by simp)
    rwa [List.append_nil] at hlast
  case more =>
    intro cs e ns t u v hdata _ _ he hns
    have hcons := hns.element he fun n _ hboth => absurd hboth.1 Bool.false_ne_true
    apply hcons.textNodes hdata
    simp [Element.toNode, Node.isText]

/-- Every element of a tree that was parsed, whatever was requested, is well formed, and the value of
an attribute is found under its name and under no other. -/
theorem parse_wellFormed {text : Bytes} {requests : List Setting}
    (h : (parse text requests).result = .ok (.ok e)) (he : e'.toNode ∈ e.toNode.nodes) :
    e'.WellFormed ∧
      (∀ key value, e'.attribute? key = some value ↔ (key, value) ∈ e'.attributes) ∧
      ∀ key, e'.attribute? key = none ↔ key ∉ e'.attributes.map Prod.fst := by
  obtain ⟨input, _, u, hread⟩ := Definitions.reads_of_evaluate h
  obtain ⟨_, _, ⟨_, _, _, ht, _⟩⟩ := sound_document (sound_element _ _) hread
  have hwell := ht.wellFormed e' he
  exact ⟨hwell, fun _ _ => hwell.attribute?_eq_some, fun _ => Element.attribute?_eq_none⟩

/-- An element below the root, and the attributes of the root. -/
theorem parse_wellFormed_letter :
    (parse (letter.toNode.print []) []).result = .ok (.ok letter) ∧
      Element.WellFormed ⟨"b:x", [], [.text "x"]⟩ ∧ letter.attribute? "from" = some "c's" ∧
      letter.attribute? "date" = none := by
  have hprintable : letter.pruned.toNode.Printable := by
    rw [toNode_pruned, letter_printable.pruned_eq]
    exact letter_printable
  have hparse : (parse (letter.toNode.print []) []).result = .ok (.ok letter) :=
    parse_print_pruned hprintable
  have hself : letter.toNode ∈ letter.toNode.nodes := by
    simp [Element.toNode, Node.nodes]
  have hbelow : Element.toNode ⟨"b:x", [], [.text "x"]⟩ ∈ letter.toNode.nodes := by
    simp [letter, Element.toNode, Node.nodes, nodesOfAll]
  obtain ⟨_, hsome, hnone⟩ := parse_wellFormed hparse hself
  refine ⟨hparse, (parse_wellFormed hparse hbelow).1, (hsome _ _).mpr ?_, (hnone _).mpr ?_⟩
  · decide
  · decide

end Backtrack.Xml
