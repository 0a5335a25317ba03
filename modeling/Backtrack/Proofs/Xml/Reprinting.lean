import Mathlib.Data.List.DropRight
import Backtrack.Proofs.Xml.Printing

/-!
# Printing what was read

A tree that was read from a text can be printed, apart from the empty texts in it: names are names,
a value lacks one kind of quotes, a text has no tag in it and no white space around it, and between
two texts there is an element. An empty text stands for white space that is not a space of XML. It
is printed as a blank line, and a blank line is ignored, so reading what was printed gives the tree
without its empty texts.

This module does NOT show that a tree survives which no text is read as.
-/

namespace Backtrack.Xml

open Text

variable {cs : List Char} {e : Element} {n : Node} {ns : List Node} {t : Bytes}

theorem bracket_of_mem_chars (h : '<' ∈ Utf8.chars t) : Bytes.ascii '<' ∈ t := by
  induction t using Utf8.chars_induction with
  | nil => cases h
  | char text c n hread ih =>
    obtain ⟨b, rest, rfl⟩ := List.exists_cons_of_ne_nil (l := text) (by rintro rfl; cases hread)
    have hdecode : Utf8.decode? (b :: rest) = some (c, n) := by simp [Utf8.decode?, hread]
    rw [Utf8.chars_of_decode? hdecode] at h
    rcases List.mem_cons.mp h with rfl | h
    · obtain ⟨r, hr⟩ := (head_of_char hdecode).mp rfl
      rw [hr]
      exact List.mem_cons_self
    · exact List.mem_of_mem_drop (ih h)
  | stray b rest hread ih =>
    rw [Utf8.chars, Utf8.items_of_stray hread, List.map_cons] at h
    have hne : ('<' : Char) ≠ Utf8.replacement := by decide
    exact List.mem_cons_of_mem b (ih (List.mem_of_ne_of_mem hne h))

theorem bracket_of_mem_ofChars (h : Bytes.ascii '<' ∈ Utf8.ofChars cs) : '<' ∈ cs := by
  obtain ⟨c, hc, hmem⟩ := List.mem_flatMap.mp h
  have hdecode : Utf8.decode? (Utf8.encode c) = some (c, (Utf8.encode c).length) := by
    have hstrict := Utf8.strict?_encode c []
    rw [List.append_nil] at hstrict
    obtain ⟨b, rest, hb⟩ := List.exists_cons_of_ne_nil (List.ne_nil_of_mem hmem)
    rw [hb] at hstrict ⊢
    simp [Utf8.decode?, hstrict]
  by_cases hbracket : c = '<'
  · rwa [hbracket] at hc
  · have hfree := not_mem_char hdecode hbracket
    rw [List.take_length] at hfree
    exact absurd hmem hfree

theorem CharacterData.free (h : CharacterData cs t) : '<' ∉ cs := by
  induction h with
  | last hrun => exact fun h => hrun (bracket_of_mem_chars h)
  | more hrun _ _ ih =>
    intro h
    rcases List.mem_append.mp h with h | h
    · exact hrun (bracket_of_mem_chars h)
    · exact ih h

/-- Trimming starts from both ends. -/
theorem trimBlanks_eq (cs : List Char) : trimBlanks cs =
    (cs.dropWhile fun c => Text.isBlank c.toNat).rdropWhile fun c => Text.isBlank c.toNat := rfl

theorem mem_of_mem_trimBlanks {c : Char} (h : c ∈ trimBlanks cs) : c ∈ cs := by
  rw [trimBlanks_eq] at h
  exact (List.dropWhile_suffix _).subset ((List.rdropWhile_prefix _ _).subset h)

/-- A text that was trimmed stays as it is. -/
theorem trimBlanks_trimBlanks (cs : List Char) : trimBlanks (trimBlanks cs) = trimBlanks cs := by
  have hfront : (trimBlanks cs).dropWhile (fun c => Text.isBlank c.toNat) = trimBlanks cs := by
    apply List.dropWhile_eq_self_iff.mpr
    intro hpos
    obtain ⟨rest, hrest⟩ := List.rdropWhile_prefix (fun c => Text.isBlank c.toNat)
      (cs.dropWhile fun c => Text.isBlank c.toNat)
    rw [← trimBlanks_eq] at hrest
    have hidem := List.dropWhile_idempotent (fun c => Text.isBlank c.toNat) cs
    have hhead := List.dropWhile_eq_self_iff.mp hidem
    simp only [← hrest, List.length_append, List.getElem_append_left hpos] at hhead
    exact hhead (by omega)
  rw [trimBlanks_eq (trimBlanks cs), hfront, trimBlanks_eq, List.rdropWhile_idempotent]

theorem plain_trim (h : CharacterData cs t) (hne : Text.trim (Utf8.ofChars cs) ≠ []) :
    Plain (Text.trim (Utf8.ofChars cs)) := by
  rw [trim_ofChars] at hne ⊢
  refine ⟨Utf8.isValid_ofChars _, hne, ?_, ?_⟩
  · intro hmem
    exact h.free (mem_of_mem_trimBlanks (bracket_of_mem_ofChars hmem))
  · rw [trim_ofChars, trimBlanks_trimBlanks]

theorem Attribute.printable {a : Bytes × Bytes} (h : Attribute a t) : Name a.1 ∧ Quotable a.2 := by
  obtain ⟨hname, _, ⟨rfl | rfl, hfree⟩, _⟩ := h
  · exact ⟨hname, .inl hfree⟩
  · exact ⟨hname, .inr hfree⟩

theorem Attributes.printable {as : List (Bytes × Bytes)} (h : Attributes as t) :
    ∀ a ∈ as, Name a.1 ∧ Quotable a.2 := by
  induction h with
  | nil => nofun
  | cons h _ ih => exact List.forall_mem_cons.mpr ⟨h.printable, ih⟩

/-- Nodes that can be printed next to each other once they are pruned. -/
structure Prunable (ns : List Node) : Prop where
  printable : ∀ n ∈ prunedAll ns, n.Printable
  apart : (prunedAll ns).IsChain fun n n' => ¬ (n.isText = true ∧ n'.isText = true)

theorem prunable_nil : Prunable [] :=
  ⟨by rw [prunedAll]; nofun, by rw [prunedAll]; exact .nil⟩

theorem Prunable.element (h : e.pruned.toNode.Printable) (hns : Prunable ns) :
    Prunable (e.toNode :: ns) := by
  have hcons : prunedAll (e.toNode :: ns) = e.pruned.toNode :: prunedAll ns := by
    rw [prunedAll_cons rfl, toNode_pruned]
  constructor
  · rw [hcons]
    exact List.forall_mem_cons.mpr ⟨h, hns.printable⟩
  · rw [hcons]
    exact hns.apart.cons fun _ _ h => absurd h.1 Bool.false_ne_true

theorem Prunable.text (h : t ≠ [] → Plain t) (hns : Prunable ns)
    (hfirst : ∀ n ∈ (prunedAll ns).head?, n.isText = false) : Prunable (.text t :: ns) := by
  cases t with
  | nil =>
    have hvoid : prunedAll (.text [] :: ns) = prunedAll ns := prunedAll_void rfl ns
    exact ⟨hvoid ▸ hns.printable, hvoid ▸ hns.apart⟩
  | cons b rest =>
    have hcons : prunedAll (.text (b :: rest) :: ns) = .text (b :: rest) :: prunedAll ns := by
      rw [prunedAll_cons rfl, Node.pruned]
    constructor
    · rw [hcons]
      exact List.forall_mem_cons.mpr ⟨.text (h (List.cons_ne_nil b rest)), hns.printable⟩
    · rw [hcons]
      exact hns.apart.cons fun n hn h => absurd h.2 (Bool.eq_false_iff.mp (hfirst n hn))

/-- The text between two tags makes a plain node, or an empty one, or none. -/
theorem Prunable.textNodes (h : CharacterData cs t) (hns : Prunable ns)
    (hfirst : ∀ n ∈ (prunedAll ns).head?, n.isText = false) : Prunable (textNodes cs ++ ns) := by
  unfold Xml.textNodes
  split
  · exact hns
  · exact hns.text (plain_trim h) hfirst

/-- What is left of a tree that was read, without its empty texts, can be printed. -/
theorem Written.printable (h : Written e t) : e.pruned.toNode.Printable := by
  refine @Written.rec (fun e _ _ => e.pruned.toNode.Printable) (fun ns _ _ => Prunable ns)
    ?empty ?full ?last ?more e t h
  case empty =>
    intro name t attributes htag
    obtain ⟨hname, hattributes, _, hdistinct, _⟩ := htag
    exact .element hname hattributes.printable hdistinct prunable_nil.apart prunable_nil.printable
  case full =>
    intro name t inside u attributes children htag _ _ hchildren
    obtain ⟨hname, hattributes, _, hdistinct, _⟩ := htag
    exact .element hname hattributes.printable hdistinct hchildren.apart hchildren.printable
  case last =>
    intro cs t hdata
    have hlast := prunable_nil.textNodes hdata (by rw [prunedAll]; nofun)
    rwa [List.append_nil] at hlast
  case more =>
    intro cs e ns t u v hdata _ _ he hns
    apply (hns.element he).textNodes hdata
    rw [prunedAll_cons rfl, ← toNode_pruned]
    rintro _ ⟨⟩
    rfl

mutual

def Node.nodes : Node → List Node
  | .element name attributes children => .element name attributes children :: nodesOfAll children
  | .text t => [.text t]

def nodesOfAll : List Node → List Node
  | [] => []
  | n :: ns => n.nodes ++ nodesOfAll ns

end

theorem length_prunedAll_le (ns : List Node) : (prunedAll ns).length ≤ ns.length := by
  induction ns with
  | nil => rw [prunedAll]
  | cons n ns ih =>
    cases hvoid : n.isVoid with
    | true =>
      rw [prunedAll_void hvoid]
      exact Nat.le_succ_of_le ih
    | false =>
      rw [prunedAll_cons hvoid]
      exact Nat.succ_le_succ ih

theorem Node.isVoid_iff : n.isVoid = true ↔ n = .text [] := by
  cases n with
  | element => exact ⟨nofun, nofun⟩
  | text t => simp [isVoid]

mutual

theorem Node.pruned_eq_self_iff (n : Node) (h : n ≠ .text []) :
    n.pruned = n ↔ .text [] ∉ n.nodes := by
  cases n with
  | text t =>
    rw [Node.pruned, Node.nodes, List.mem_singleton]
    exact ⟨fun _ heq => h heq.symm, fun _ => rfl⟩
  | element name attributes children =>
    rw [Node.pruned, Node.nodes, Node.element.injEq, List.mem_cons, prunedAll_eq_self_iff children]
    simp

theorem prunedAll_eq_self_iff (ns : List Node) : prunedAll ns = ns ↔ .text [] ∉ nodesOfAll ns := by
  cases ns with
  | nil =>
    rw [prunedAll, nodesOfAll]
    simp
  | cons n ns =>
    cases hvoid : n.isVoid with
    | true =>
      have hlength := length_prunedAll_le ns
      rw [prunedAll_void hvoid, nodesOfAll, Node.isVoid_iff.mp hvoid, Node.nodes]
      constructor
      · intro heq
        rw [heq, List.length_cons] at hlength
        omega
      · intro hmem
        exact absurd List.mem_cons_self hmem
    | false =>
      have hne : n ≠ .text [] := fun heq => absurd (Node.isVoid_iff.mpr heq) (by simp [hvoid])
      rw [prunedAll_cons hvoid, nodesOfAll, List.mem_append, not_or, List.cons.injEq,
        n.pruned_eq_self_iff hne, prunedAll_eq_self_iff ns]

end

theorem Element.pruned_eq_self_iff (e : Element) : e.pruned = e ↔ .text [] ∉ e.toNode.nodes := by
  rw [← e.toNode.pruned_eq_self_iff nofun, ← toNode_pruned]
  obtain ⟨name, attributes, children⟩ := e
  simp [Element.toNode, Element.pruned]

/-- A tree that is printable once it is pruned is pruned by printing and reading it. -/
theorem parse_print_pruned (h : e.pruned.toNode.Printable) :
    (parse (e.toNode.print []) []).result = .ok (.ok e.pruned) := by
  rw [toNode_pruned] at h
  obtain ⟨t, ht, hprint⟩ := e.toNode.lined h [] rfl
  rw [← toNode_pruned] at ht
  rw [Node.print, hprint]
  have hbehind : Ignored (Bytes.ofString "\n" ++ []) := .space (by decide) .nil
  have hdocument := Document.mk .nil (.inl rfl) .nil ht hbehind
  exact parse_of_document hdocument

/-- Printing what was read and reading it again takes the empty texts out of the tree and changes
nothing else. So the tree comes back exactly if there is no empty text in it. -/
theorem parse_print_of_parse {text : Bytes} (h : (parse text []).result = .ok (.ok e)) :
    (parse (e.toNode.print []) []).result = .ok (.ok e.pruned) ∧
      (e.pruned = e ↔ .text [] ∉ e.toNode.nodes) := by
  obtain ⟨_, _, _, ht, _⟩ := document_of_parse h
  exact ⟨parse_print_pruned ht.printable, e.pruned_eq_self_iff⟩

/-- A no-break space, which is white space but not a space of XML, is an empty text. -/
def blank : Element := ⟨"a", [], [.text []]⟩

theorem parse_blank : (parse "<a>\u00a0</a>" []).result = .ok (.ok blank) := by
  apply parse_of_document
  have hname : Name "a" := .mk (by decide) (by decide)
  have htag : Opening ⟨"a", [], false⟩ "<a>" :=
    @Opening.mk "a" [] [] [] false hname .nil headNot_nil .nil rfl
  have hdata : CharacterData ['\u00a0'] (Utf8.ofChars ['\u00a0']) :=
    characterData_chars (by decide)
  have hcontent : Content Written [.text []] "\u00a0" := .last hdata
  have hclosing : Closing "a" "</a>" := @Closing.mk "a" [] rfl
  exact .mk .nil (.inl rfl) .nil (.full htag hcontent hclosing) .nil

/-- The tree with an empty text comes back without it. -/
theorem parse_print_blank :
    (parse "<a>\u00a0</a>" []).result = .ok (.ok blank) ∧
      (parse (blank.toNode.print []) []).result = .ok (.ok ⟨"a", [], []⟩) := by
  have hpruned : blank.pruned = ⟨"a", [], []⟩ := rfl
  have hprint := (parse_print_of_parse parse_blank).1
  rw [hpruned] at hprint
  exact ⟨parse_blank, hprint⟩

theorem parse_print_ne_blank : ¬ ∀ text e, (parse text []).result = .ok (.ok e) →
    (parse (e.toNode.print []) []).result = .ok (.ok e) := by
  intro h
  have hblank := h _ blank parse_blank
  have hpruned := parse_print_pruned (e := blank)
    (.element (.mk (by decide) (by decide)) (by nofun) .nil .nil (by nofun))
  rw [hpruned] at hblank
  injection hblank with hblank
  injection hblank with hblank
  injection hblank with _ _ hchildren
  cases hchildren

end Backtrack.Xml
