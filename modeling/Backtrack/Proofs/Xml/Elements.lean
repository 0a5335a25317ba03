import Backtrack.Proofs.Xml.Comments
import Backtrack.Proofs.Xml.Tags

/-!
# Reading elements

The content of an element is read stretch by stretch: what is ignored in front of a stretch of text
belongs to its characters, and so it does not matter which term of the grammar takes it. An element
stands behind the opening tag of the one around it, so the depth of references that a text needs is
at most its length.
-/

namespace Backtrack.Xml

open Text

variable {rd : Reader Rule.type} {s t u m : Bytes} {cs ds : List Char} {e : Element} {n : Node}
  {ns : List Node} {L : Element → Bytes → Prop}

theorem textNodes_blank (h : cs.all Term.isSpace = true) : textNodes cs = [] := if_pos h

theorem textNodes_append (hcs : cs.all Term.isSpace = true) (hds : ds.all Term.isSpace = false) :
    textNodes (cs ++ ds) = [.text (Utf8.ofChars (trimBlanks ds))] := by
  have hall : ¬ (cs ++ ds).all Term.isSpace = true := by
    rw [List.all_append, hcs, hds]
    simp
  rw [textNodes, if_neg hall, trim_ofChars, trimBlanks_append hcs]

/-- A tag is not made of character data. -/
theorem CharacterData.eq_nil (h : CharacterData cs t) (hu : AtTag (t ++ u)) : t = [] ∧ cs = [] := by
  have hrun : ∀ {run v : Bytes}, Bytes.ascii '<' ∉ run → AtTag (run ++ v) → run = [] := by
    intro run v hrun htag
    rcases run with _ | ⟨b, run⟩
    · rfl
    · have hb : b = Bytes.ascii '<' := by simpa using headNot_cons.mp htag.head
      rw [hb] at hrun
      exact absurd List.mem_cons_self hrun
  cases h with
  | last hfree =>
    obtain rfl := hrun hfree hu
    exact ⟨rfl, rfl⟩
  | more hfree hcomment =>
    rw [List.append_assoc, List.append_assoc] at hu
    obtain rfl := hrun hfree hu
    exact absurd (hcomment.head.trans (List.prefix_append _ _)) hu.notComment

theorem Content.prepend (h : Content L ns m) (hu : AtTag (m ++ u)) (ht : CharacterData cs t) :
    Content L (textNodes cs ++ ns) (t ++ m) := by
  cases h with
  | last hm =>
    obtain ⟨rfl, rfl⟩ := hm.eq_nil hu
    rw [List.append_nil]
    have hnil : textNodes [] = [] := rfl
    rw [hnil, List.append_nil]
    exact .last ht
  | more hm he hrest =>
    rw [List.append_assoc, List.append_assoc] at hu
    obtain ⟨rfl, rfl⟩ := hm.eq_nil hu
    have hnil : textNodes [] = [] := rfl
    rw [hnil, List.nil_append, List.nil_append, ← List.append_assoc]
    exact .more ht he hrest

/-- The spaces in front of a text, and the comments among them. -/
theorem Crossing.split_spaces (h : Crossing s cs u) (hu : AtTag u) :
    ∃ before behind m, cs = before ++ behind ∧ before.all Term.isSpace = true ∧
      Crossing s before m ∧ HeadNot isSpaceByte m ∧ ¬ opening <+: m ∧ Crossing m behind u := by
  induction h with
  | stop s => exact ⟨[], [], s, rfl, rfl, .stop s, hu.headNot (by decide), hu.notComment, .stop s⟩
  | @char s u c n cs hs hc hrest ih =>
    by_cases hspace : Term.isSpace c = true
    · obtain ⟨before, behind, m, rfl, hbefore, hcrossing, hm, hcomment, hbehind⟩ := ih hu
      refine ⟨c :: before, behind, m, rfl, ?_, .char hs hc hcrossing, hm, hcomment, hbehind⟩
      rw [List.all_cons, hspace, hbefore]
      rfl
    · have hhead := headNot_of_char hs (Bool.eq_false_iff.mpr hspace)
      refine ⟨[], c :: cs, s, rfl, rfl, .stop s, hhead, ?_, .char hs hc hrest⟩
      · rintro ⟨r, rfl⟩
        exact hc ((head_of_char hs).mpr ⟨_, rfl⟩)
  | comment ht _ ih =>
    obtain ⟨before, behind, m, rfl, hbefore, hcrossing, hm, hcomment, hbehind⟩ := ih hu
    exact ⟨before, behind, m, rfl, hbefore, .comment ht hcrossing, hm, hcomment, hbehind⟩

/-- Where spaces and comments are over, text does not begin with a space. -/
theorem Crossing.not_blank (h : Crossing s cs u) (hcs : cs ≠ []) (hs : HeadNot isSpaceByte s)
    (hcomment : ¬ opening <+: s) : cs.all Term.isSpace = false := by
  cases h with
  | stop => exact absurd rfl hcs
  | char hread =>
    rw [List.all_cons, Bool.and_eq_false_iff, ← Bool.not_eq_true]
    left
    intro hspace
    obtain ⟨b, r, rfl, hb, _⟩ := space_of_char hread hspace
    rw [headNot_cons.mp hs] at hb
    cases hb
  | comment ht => exact absurd (ht.head.trans (List.prefix_append _ _)) hcomment

theorem Crossing.not_tag (h : Crossing s cs u) (hcs : cs ≠ []) (hcomment : ¬ opening <+: s)
    (r : Bytes) : s ≠ Bytes.ascii '<' :: r := by
  intro heq
  cases h with
  | stop => exact hcs rfl
  | char hread hc => exact hc ((head_of_char hread).mpr ⟨r, heq⟩)
  | comment ht => exact hcomment (ht.head.trans (List.prefix_append _ _))

def node : Grammar Node := .choice [(Term.ref Rule.element).map Element.toNode, text]

theorem children_eq : children = ((ignored.skipLeft node).many0).skipRight ignored := rfl

theorem reads_node : rd.Reads node s n u ↔
    (∃ e, rd.Reads (.ref Rule.element) s e u ∧ e.toNode = n) ∨
      rd.Rejects (.ref Rule.element) s ∧ rd.Reads text s n u := by
  rw [node, Reader.reads_choice_cons, Reader.reads_map, Reader.rejects_map_iff,
    Reader.reads_choice_cons]
  constructor
  · rintro (h | ⟨hreject, h | ⟨_, h⟩⟩)
    · exact .inl h
    · exact .inr ⟨hreject, h⟩
    · exact absurd h Reader.not_reads_choice_nil
  · rintro (h | ⟨hreject, h⟩)
    · exact .inl h
    · exact .inr ⟨hreject, .inl h⟩

theorem rejects_node (h : rd.Rejects (.ref Rule.element) s) (h' : rd.Rejects text s) :
    rd.Rejects node s := by
  apply Reader.rejects_choice_cons (Reader.rejects_map h)
  exact Reader.rejects_choice_cons h' (Reader.rejects_choice_nil h.start)

theorem atTag_cons {b : UInt8} {r : Bytes} (hb : b ≠ Bytes.ascii '!') :
    AtTag (Bytes.ascii '<' :: b :: r) := by
  constructor
  · exact headNot_cons.mpr (by decide)
  · rintro ⟨_, heq⟩
    exact hb (List.cons.inj (List.cons.inj heq).2).1.symm

theorem Written.head (h : Written e t) :
    ∃ b r, t = Bytes.ascii '<' :: b :: r ∧ isNameStart b = true := by
  cases h with
  | empty h => exact h.head
  | full h =>
    rename_i inside u _ _ _ _
    obtain ⟨b, r, rfl, hb⟩ := h.head
    exact ⟨b, r ++ (inside ++ u), List.append_assoc _ _ _, hb⟩

theorem Written.length_pos (h : Written e t) : 0 < t.length := by
  obtain ⟨b, r, rfl, _⟩ := h.head
  exact Nat.succ_pos _

theorem Written.atTag (h : Written e t) (u : Bytes) : AtTag (t ++ u) := by
  obtain ⟨b, r, rfl, hb⟩ := h.head
  apply atTag_cons
  rintro rfl
  exact absurd hb (by decide)

theorem Closing.atTag {name : Bytes} (h : Closing name t) (u : Bytes) : AtTag (t ++ u) := by
  obtain ⟨_⟩ := h
  exact atTag_cons (by decide)

theorem Closing.headNot {name : Bytes} (h : Closing name t) (u r : Bytes)
    (heq : t ++ u = Bytes.ascii '<' :: r) : HeadNot isNameStart r := by
  obtain ⟨_⟩ := h
  rw [← (List.cons.inj heq).2]
  exact headNot_cons.mpr (by decide)

theorem content_of_chain (hL : rd.Sound (.ref Rule.element) Written)
    (h : rd.Chain (ignored.skipLeft node) s ns m) {ws : List Unit}
    (hend : rd.Reads ignored m ws u) (hu : AtTag u) : ∃ t, s = t ++ u ∧ Content Written ns t := by
  induction h with
  | stop =>
    obtain ⟨_, ⟨cs, hcs, hcrossing⟩, _⟩ := reads_ignored.mp ⟨ws, hend⟩
    obtain ⟨t, rfl, ht⟩ := characterData_of_crossing hcrossing (hu.headNot (by decide))
    refine ⟨t, rfl, ?_⟩
    rw [← textNodes_blank hcs]
    exact .last ht
  | @next s m' m n ns h _ _ ih =>
    obtain ⟨v, rfl, hv⟩ := ih hend
    obtain ⟨_, w, hignored, hnode⟩ := Reader.reads_skipLeft.mp h
    obtain ⟨_, ⟨cs, hcs, hcrossing⟩, hspace, hcomment⟩ := reads_ignored.mp ⟨_, hignored⟩
    rcases reads_node.mp hnode with ⟨e, he, rfl⟩ | ⟨_, htext⟩
    · obtain ⟨x, rfl, hx⟩ := hL he
      have hwide : HeadNot Utf8.isWide (x ++ (v ++ u)) := (hx.atTag (v ++ u)).headNot (by decide)
      obtain ⟨t, rfl, ht⟩ := characterData_of_crossing hcrossing hwide
      have hcontent := Content.more ht hx hv
      rw [textNodes_blank hcs] at hcontent
      exact ⟨t ++ x ++ v, by simp, hcontent⟩
    · obtain ⟨_, ds, hne, hcrossing', htag, rfl⟩ := reads_text.mp htext
      have hds := hcrossing'.not_blank hne hspace hcomment
      have hwide : HeadNot Utf8.isWide (v ++ u) := htag.headNot (by decide)
      obtain ⟨t, rfl, ht⟩ := characterData_of_crossing (hcrossing.trans hcrossing') hwide
      have hcontent := hv.prepend htag ht
      rw [textNodes_append hcs hds] at hcontent
      exact ⟨t ++ v, by simp, hcontent⟩

theorem sound_element_of_ref (hL : rd.Sound (.ref Rule.element) Written) :
    rd.Sound element Written := by
  intro s e u h
  obtain ⟨⟨⟨name, attributes, selfClosing⟩, ns⟩, hpair, rfl⟩ :=
    Reader.reads_map.mp (Reader.reads_named.mp h)
  obtain ⟨m, htag, hcontent⟩ := Reader.reads_flatMap.mp hpair
  obtain ⟨t, rfl, ht⟩ := sound_openTag htag
  cases selfClosing with
  | true =>
    obtain ⟨_, rfl, rfl⟩ := Reader.reads_always.mp hcontent
    exact ⟨t, rfl, .empty ht⟩
  | false =>
    obtain ⟨_, w, hchildren, hclosing⟩ := Reader.reads_skipRight.mp hcontent
    obtain ⟨x, rfl, hx⟩ := sound_closeTag hclosing
    obtain ⟨_, w', hmany, hend⟩ := Reader.reads_skipRight.mp (children_eq ▸ hchildren)
    obtain ⟨inside, rfl, hinside⟩ :=
      content_of_chain hL (Reader.reads_many0.mp hmany).2 hend (hx.atTag u)
    exact ⟨t ++ inside ++ x, by simp, .full ht hinside hx⟩

theorem sound_element (input : Input) (depth : Nat) :
    (definitions.reader depth input).Sound element Written := by
  induction depth with
  | zero => exact sound_element_of_ref fun _ _ _ h => absurd h Definitions.not_reads_ref
  | succ depth ih =>
    exact sound_element_of_ref fun _ _ _ h => ih ((Definitions.reads_ref rfl).mp h)

/-- A term reads every text of a language up to some length, wherever it stands. -/
def Complete (rd : Reader Rule.type) (p : Grammar Element) (L : Element → Bytes → Prop) (n : Nat) :
    Prop :=
  ∀ ⦃e t⦄, L e t → t.length ≤ n → ∀ ⦃u⦄, t ++ u <:+ rd.bytes → rd.Reads p (t ++ u) e u

/-- The children that are left at a tag are read from wherever what is ignored leads there. -/
def Onward (rd : Reader Rule.type) (m : Bytes) (ns : List Node) (u : Bytes) : Prop :=
  ∀ ⦃s ws⦄, rd.Reads ignored s ws m → rd.Reads children s ns u

theorem reads_ignored_nil (hs : s <:+ rd.bytes) (h : AtTag s) : ∃ ws, rd.Reads ignored s ws s :=
  reads_ignored.mpr ⟨hs, ⟨[], rfl, .stop s⟩, h.headNot (by decide), h.notComment⟩

theorem onward_nil (h : rd.Rejects node u) : Onward rd u [] u := by
  intro s ws hignored
  have hreject := Reader.rejects_skipLeft_iff.mpr (.inr ⟨ws, u, hignored, h⟩)
  have hmany := Reader.reads_many0.mpr ⟨hignored.start, .stop (.inl hreject)⟩
  exact Reader.reads_skipRight.mpr ⟨ws, s, hmany, hignored⟩

theorem onward_cons (h : rd.Reads node s n m) (hlt : m.length < s.length)
    (hrest : rd.Reads children m ns u) : Onward rd s (n :: ns) u := by
  intro s' ws hignored
  obtain ⟨ws', w, hmany, hend⟩ := Reader.reads_skipRight.mp hrest
  have hread := Reader.reads_skipLeft.mpr ⟨ws, s, hignored, h⟩
  have hchain : rd.Chain (ignored.skipLeft node) s' (n :: ns) w := by
    apply Reader.Chain.next hread ?_ (Reader.reads_many0.mp hmany).2
    rintro rfl
    exact absurd hignored.rest.length_le (by omega)
  exact Reader.reads_skipRight.mpr ⟨ws', w, Reader.reads_many0.mpr ⟨hread.start, hchain⟩, hend⟩

/-- A term misses where no tag of an element opens. -/
def Discerning (rd : Reader Rule.type) (p : Grammar Element) : Prop :=
  ∀ ⦃s⦄, s <:+ rd.bytes → (∀ r, s = Bytes.ascii '<' :: r → HeadNot isNameStart r) →
    rd.Rejects p s

/-- A stretch of text in front of children makes at most one more child. -/
theorem reads_children (hreject : Discerning rd (.ref Rule.element)) (h : CharacterData cs t)
    (hs : t ++ m <:+ rd.bytes) (hm : AtTag m) (hrest : Onward rd m ns u) :
    rd.Reads children (t ++ m) (textNodes cs ++ ns) u := by
  have hcrossing := crossing_of_characterData h (hm.headNot (by decide))
  by_cases hcs : cs.all Term.isSpace = true
  · obtain ⟨ws, hignored⟩ := reads_ignored.mpr
      ⟨hs, ⟨cs, hcs, hcrossing⟩, hm.headNot (by decide), hm.notComment⟩
    rw [textNodes_blank hcs]
    exact hrest hignored
  · obtain ⟨before, behind, w, rfl, hbefore, hcrossing', hspace, hcomment, htext⟩ :=
      hcrossing.split_spaces hm
    have hne : behind ≠ [] := by
      rintro rfl
      rw [List.append_nil] at hcs
      exact hcs hbefore
    obtain ⟨ws, hignored⟩ := reads_ignored.mpr ⟨hs, ⟨before, hbefore, hcrossing'⟩, hspace, hcomment⟩
    obtain ⟨ws', hnil⟩ := reads_ignored_nil ((List.suffix_append t m).trans hs) hm
    have hread := reads_text.mpr ⟨hignored.finish, behind, hne, htext, hm, rfl⟩
    have helement := hreject hignored.finish fun r heq => absurd heq (htext.not_tag hne hcomment r)
    have hnode := reads_node.mpr (.inr ⟨helement, hread⟩)
    rw [textNodes_append hbefore (htext.not_blank hne hspace hcomment)]
    exact onward_cons hnode (htext.length_lt hne) (hrest hnil) hignored

theorem reads_content {l : Nat} (hp : Complete rd (.ref Rule.element) Written l)
    (hreject : Discerning rd (.ref Rule.element)) (h : Content Written ns t) (hl : t.length ≤ l)
    (hs : t ++ u <:+ rd.bytes) (hu : AtTag u) (hnode : rd.Rejects node u) :
    rd.Reads children (t ++ u) ns u := by
  induction h with
  | last ht =>
    have hread := reads_children hreject ht hs hu (onward_nil hnode)
    rwa [List.append_nil] at hread
  | @more cs e ns t x v ht hx _ ih =>
    rw [List.append_assoc, List.append_assoc] at hs ⊢
    simp only [List.length_append] at hl
    have hsuffix := (List.suffix_append t _).trans hs
    have hrest := ih (by omega) ((List.suffix_append x _).trans hsuffix)
    have he := reads_node.mpr (.inl ⟨e, hp hx (by omega) hsuffix, rfl⟩)
    have hlt : (v ++ u).length < (x ++ (v ++ u)).length := by
      have hpos := hx.length_pos
      simp only [List.length_append]
      omega
    exact reads_children hreject ht hs (hx.atTag _) (onward_cons he hlt hrest)

theorem complete_element_of_ref {l : Nat} (hp : Complete rd (.ref Rule.element) Written l)
    (hreject : Discerning rd (.ref Rule.element)) : Complete rd element Written (l + 1) := by
  intro e t h hl u hs
  apply Reader.reads_named.mpr
  cases h with
  | @empty name t attributes h =>
    have htag := reads_openTag h hs
    have hcontent : rd.Reads (.always []) u ([] : List Node) u :=
      Reader.reads_always.mpr ⟨htag.finish, rfl, rfl⟩
    exact Reader.reads_map.mpr ⟨(_, []), Reader.reads_flatMap.mpr ⟨u, htag, hcontent⟩, rfl⟩
  | @full name t inside x attributes ns h hinside hclosing =>
    have hpos : 0 < t.length := by
      obtain ⟨b, r, rfl, _⟩ := h.head
      exact Nat.succ_pos _
    simp only [List.length_append] at hl
    rw [List.append_assoc, List.append_assoc] at hs ⊢
    have htag := reads_openTag h hs
    have hsuffix := (List.suffix_append inside _).trans htag.finish
    have hclose := reads_closeTag hclosing hsuffix
    have hatTag := hclosing.atTag u
    have helement := hreject hsuffix (hclosing.headNot u)
    have hnode := rejects_node helement (rejects_text hsuffix hatTag)
    have hchildren := reads_content hp hreject hinside (by omega) htag.finish hatTag hnode
    have hcontent := Reader.reads_skipRight.mpr ⟨_, _, hchildren, hclose⟩
    exact Reader.reads_map.mpr ⟨(_, ns), Reader.reads_flatMap.mpr ⟨_, htag, hcontent⟩, rfl⟩

theorem discerning_element : Discerning rd element := fun _ hs h =>
  Reader.rejects_named (Reader.rejects_map (Reader.rejects_flatMap (rejects_openTag hs h)))

theorem complete_element (input : Input) (depth : Nat) :
    Complete (definitions.reader depth input) element Written depth := by
  induction depth with
  | zero =>
    intro e t h hl
    exact absurd h.length_pos (by omega)
  | succ depth ih =>
    apply complete_element_of_ref
    · intro e t h hl u hs
      exact (Definitions.reads_ref rfl).mpr (ih h hl hs)
    · intro s hs h
      exact (Definitions.rejects_ref rfl).mpr (discerning_element hs h)

end Backtrack.Xml
