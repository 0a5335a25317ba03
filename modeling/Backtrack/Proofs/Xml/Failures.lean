import Backtrack.Proofs.Parser.Failing
import Backtrack.Proofs.Termination
import Backtrack.Proofs.Xml.Documents

/-!
# How documents fail

A text is missed as a document where no tag opens behind what may stand in front of a root. From an
open tag on every error is one of the root, and a root can only be followed by what is ignored; and
wherever something is ignored, a comment may lack its end. These are all the ways to fail, because
no part of a root misses once its tag is open.

This module does NOT say which message an error inside a root has.
-/

namespace Backtrack.Xml

open Text

variable {rd : Reader Rule.type} {s t u m : Bytes} {e : ParseError}

structure Relevant (u : Bytes) : Prop where
  notSpace : HeadNot isSpaceByte u
  notComment : ¬ opening <+: u

def Opens (u : Bytes) : Prop := ∃ b r, u = Bytes.ascii '<' :: b :: r ∧ isNameStart b = true

inductive Lead : Bytes → Prop where
  | mk {before declaration between : Bytes} (hbefore : Ignored before)
      (hdeclaration : declaration = [] ∨ Declaration declaration) (hbetween : Ignored between) :
      Lead (before ++ declaration ++ between)

/-- The part of a text where its root is due, behind all that may stand in front of one. -/
inductive Leading : Bytes → Bytes → Prop where
  | bare {before u : Bytes} (hbefore : Ignored before) (hu : Relevant u)
      (hnone : ∀ declaration, Declaration declaration → ¬ declaration <+: u) :
      Leading (before ++ u) u
  | declared {before declaration between u : Bytes} (hbefore : Ignored before)
      (hdeclaration : Declaration declaration) (hbetween : Ignored between) (hu : Relevant u) :
      Leading (before ++ declaration ++ between ++ u) u

inductive Unterminated : Bytes → Prop where
  | mk {inside : Bytes} (h : ¬ Bytes.ofString "-->" <:+: inside) : Unterminated ("<!--" ++ inside)

theorem relevant_of_reads {ws : List Unit} (h : rd.Reads ignored s ws u) : Relevant u := by
  obtain ⟨_, _, hspace, hcomment⟩ := reads_ignored.mp ⟨ws, h⟩
  exact ⟨hspace, hcomment⟩

theorem Relevant.reads (h : Relevant u) (ht : Ignored t) (hs : t ++ u <:+ rd.bytes) :
    ∃ ws, rd.Reads ignored (t ++ u) ws u := by
  obtain ⟨cs, hcs, hcrossing⟩ := crossing_of_ignored ht u
  exact reads_ignored.mpr ⟨hs, ⟨cs, hcs, hcrossing⟩, h.notSpace, h.notComment⟩

theorem rejects_declaration_iff : rd.Rejects (.pattern declarationPattern) s ↔
    s <:+ rd.bytes ∧ ∀ declaration, Declaration declaration → ¬ declaration <+: s := by
  constructor
  · intro h
    refine ⟨h.start, ?_⟩
    rintro declaration hdeclaration ⟨u, rfl⟩
    exact h.not_reads (reads_declaration hdeclaration h.start)
  · rintro ⟨hs, hnone⟩
    apply Reader.rejects_pattern rfl hs
    apply Option.eq_none_iff_forall_ne_some.mpr
    intro v hv
    obtain ⟨declaration, u, hdeclaration, rfl, _⟩ := of_tries_declaration hs hv
    exact hnone declaration hdeclaration (List.prefix_append _ _)

/-- The grammar comes to where the root is due. -/
theorem leading_iff : Leading s u ∧ s <:+ rd.bytes ↔
    ∃ v m ws, rd.Reads prolog s v m ∧ rd.Reads ignored m ws u := by
  constructor
  · rintro ⟨h, hs⟩
    cases h with
    | @bare before u hbefore hu hnone =>
      obtain ⟨ws, hfirst⟩ := hu.reads hbefore hs
      obtain ⟨ws', hsecond⟩ := hu.reads .nil hfirst.finish
      have hreject := rejects_declaration_iff.mpr ⟨hfirst.finish, hnone⟩
      have hoptional : rd.Reads ((Term.pattern declarationPattern).optional []) u [] u :=
        Reader.reads_optional.mpr (.inr ⟨hreject, rfl, rfl⟩)
      exact ⟨(ws, []), u, ws', Reader.reads_and.mpr ⟨u, hfirst, hoptional⟩, hsecond⟩
    | @declared before declaration between u hbefore hdeclaration hbetween hu =>
      rw [List.append_assoc, List.append_assoc] at hs ⊢
      obtain ⟨ws, hfirst⟩ := complete_ignored hbefore hs (hdeclaration.atTag _)
      have hread := reads_declaration hdeclaration hfirst.finish
      obtain ⟨ws', hsecond⟩ := hu.reads hbetween hread.finish
      have hoptional : rd.Reads ((Term.pattern declarationPattern).optional [])
          (declaration ++ (between ++ u)) declaration (between ++ u) :=
        Reader.reads_optional.mpr (.inl hread)
      exact ⟨(ws, _), _, ws', Reader.reads_and.mpr ⟨_, hfirst, hoptional⟩, hsecond⟩
  · rintro ⟨v, m, ws, hprolog, hsecond⟩
    refine ⟨?_, hprolog.start⟩
    have hu := relevant_of_reads hsecond
    obtain ⟨w, hfirst, hoptional⟩ := Reader.reads_and.mp hprolog
    obtain ⟨before, rfl, hbefore⟩ := sound_ignored hfirst
    rcases Reader.reads_optional.mp hoptional with hread | ⟨hreject, rfl, _⟩
    · obtain ⟨declaration, rfl, hdeclaration⟩ := sound_declaration hread
      obtain ⟨between, rfl, hbetween⟩ := sound_ignored hsecond
      have hleading := Leading.declared hbefore hdeclaration hbetween hu
      rwa [List.append_assoc, List.append_assoc] at hleading
    · -- Where no declaration stands nothing is left to be ignored.
      have hw := relevant_of_reads hfirst
      obtain ⟨_, hnil⟩ := hw.reads .nil hfirst.finish
      obtain ⟨_, rfl⟩ := hsecond.unique hnil
      exact .bare hbefore hw (rejects_declaration_iff.mp hreject).2

theorem Leading.lead (h : Leading s u) : ∃ w, s = w ++ u ∧ Lead w := by
  cases h with
  | @bare before u hbefore =>
    have hlead := Lead.mk hbefore (.inl rfl) .nil
    rw [List.append_nil, List.append_nil] at hlead
    exact ⟨before, rfl, hlead⟩
  | declared hbefore hdeclaration hbetween =>
    exact ⟨_, rfl, .mk hbefore (.inr hdeclaration) hbetween⟩

theorem Leading.unique (h : Leading s u) (h' : Leading s m) : u = m := by
  have hs : s <:+ (definitions.readerOf 1 s).bytes := List.suffix_rfl
  obtain ⟨_, _, _, hprolog, hignored⟩ := leading_iff.mp ⟨h, hs⟩
  obtain ⟨_, _, _, hprolog', hignored'⟩ := leading_iff.mp ⟨h', hs⟩
  obtain ⟨_, rfl⟩ := hprolog.unique hprolog'
  exact (hignored.unique hignored').2

theorem not_rejects_name (hs : s <:+ rd.bytes) (h : ¬ HeadNot isNameStart s) :
    ¬ rd.Rejects name s := by
  intro hreject
  rcases s with _ | ⟨b, r⟩
  · exact h headNot_nil
  · rw [headNot_cons, Bool.not_eq_false] at h
    have hsplit : b :: r = (b :: r.takeWhile isNameByte) ++ r.dropWhile isNameByte := by
      rw [List.cons_append, List.takeWhile_append_dropWhile]
    have hend : HeadNot isNameByte (r.dropWhile isNameByte) := by
      intro d hd
      have hnot := List.head?_dropWhile_not isNameByte r
      rw [hd] at hnot
      simpa using hnot
    exact hreject.not_reads
      (reads_name.mpr ⟨hs, hsplit, .mk h List.all_takeWhile, hend⟩)

theorem not_rejects_attributes :
    ¬ rd.Rejects (attributeTerm.many0.mapErr checkAttributes) s := by
  rintro ⟨hs, next, h⟩
  exact Reader.not_rejects_many0 ⟨hs, next, Reader.miss_mapErr h⟩

theorem not_rejects_openTag (h : Opens s) : ¬ rd.Rejects openTag s := by
  obtain ⟨b, r, rfl, hb⟩ := h
  intro hreject
  rcases Reader.rejects_and_iff.mp (Reader.rejects_map_iff.mp hreject) with hinside | ⟨_, _, _, hend⟩
  · rcases Reader.rejects_skipLeft_iff.mp hinside with hangle | ⟨_, m, hangle, hinside⟩
    · exact hangle.not_reads ((Reader.reads_char (by decide)).mpr ⟨hangle.start, rfl, rfl⟩)
    · obtain ⟨hs, heq, _⟩ := (Reader.reads_char (by decide)).mp hangle
      obtain rfl := (List.cons.inj heq).2
      rcases Reader.rejects_and_iff.mp hinside with hname | ⟨_, _, _, hattributes⟩
      · apply not_rejects_name hname.start ?_ hname
        rw [headNot_cons, hb]
        exact Bool.noConfusion
      · exact not_rejects_attributes hattributes
  · rcases Reader.rejects_skipLeft_iff.mp hend with hspaces | ⟨_, _, _, hclosing⟩
    · exact Reader.not_rejects_many0 hspaces
    · exact Reader.not_rejects_commit hclosing

theorem not_rejects_content (tag : OpenTag) : ¬ rd.Rejects (content tag) s := by
  intro hreject
  unfold content at hreject
  split at hreject
  · exact Reader.not_rejects_always hreject
  · rcases Reader.rejects_skipRight_iff.mp hreject with hchildren | ⟨_, _, _, hclosing⟩
    · rcases Reader.rejects_skipRight_iff.mp (children_eq ▸ hchildren) with hmany | ⟨_, _, _, hend⟩
      · exact Reader.not_rejects_many0 hmany
      · exact Reader.not_rejects_many0 (ignored_eq ▸ hend)
    · exact Reader.not_rejects_commit hclosing

/-- An element misses exactly where no tag opens. -/
theorem rejects_element : rd.Rejects element s ↔ s <:+ rd.bytes ∧ ¬ Opens s := by
  constructor
  · intro h
    refine ⟨h.start, fun hopens => ?_⟩
    have hmap : rd.Rejects ((openTag.flatMap content).map _) s := ⟨h.start, h.missed⟩
    rcases Reader.of_rejects_flatMap (Reader.rejects_map_iff.mp hmap) with htag | ⟨tag, _, _, hrest⟩
    · exact not_rejects_openTag hopens htag
    · exact not_rejects_content tag hrest
  · rintro ⟨hs, h⟩
    refine discerning_element hs fun r heq b hb => ?_
    obtain ⟨r', rfl⟩ : ∃ r', r = b :: r' := ⟨r.tail, List.eq_cons_of_mem_head? hb⟩
    exact Bool.eq_false_iff.mpr fun hstart => h ⟨b, r', heq, hstart⟩

theorem Leading.rejects_document (h : Leading s u) (hs : s <:+ rd.bytes) (hopens : ¬ Opens u) :
    rd.Rejects document s := by
  obtain ⟨v, m, ws, hprolog, hignored⟩ := leading_iff.mp ⟨h, hs⟩
  rw [document_eq]
  apply Reader.rejects_skipLeft_iff.mpr (.inr ⟨v, m, hprolog, ?_⟩)
  apply Reader.rejects_skipRight
  apply Reader.rejects_skipLeft_iff.mpr (.inr ⟨ws, u, hignored, ?_⟩)
  exact rejects_element.mpr ⟨hignored.finish, hopens⟩

/-- A document misses exactly where no tag opens though its root is due. -/
theorem rejects_document :
    rd.Rejects document s ↔ s <:+ rd.bytes ∧ ∃ u, Leading s u ∧ ¬ Opens u := by
  constructor
  · intro h
    refine ⟨h.start, ?_⟩
    rw [document_eq] at h
    rcases Reader.rejects_skipLeft_iff.mp h with hprolog | ⟨v, m, hprolog, hroot⟩
    · rcases Reader.rejects_and_iff.mp hprolog with hignored | ⟨_, _, _, hoptional⟩
      · exact absurd (ignored_eq ▸ hignored) Reader.not_rejects_many0
      · obtain ⟨_, next, hmiss⟩ := hoptional
        obtain ⟨_, _, hnone⟩ := Run.onMiss_eq_miss.mp hmiss
        cases hnone
    · rcases Reader.rejects_skipRight_iff.mp hroot with hstart | ⟨_, _, _, hend⟩
      · rcases Reader.rejects_skipLeft_iff.mp hstart with hignored | ⟨ws, u, hignored, helement⟩
        · exact absurd (ignored_eq ▸ hignored) Reader.not_rejects_many0
        · have hleading := leading_iff.mpr ⟨v, m, ws, hprolog, hignored⟩
          exact ⟨u, hleading.1, (rejects_element.mp helement).2⟩
      · exact absurd (ignored_eq ▸ hend) Reader.not_rejects_many0
  · rintro ⟨hs, u, hleading, hopens⟩
    exact hleading.rejects_document hs hopens

theorem not_fatal_commentChar (hs : s <:+ rd.bytes) : rd.run commentChar s ≠ .fatal e := by
  intro h
  rcases Reader.fatal_skipLeft hs h with hnot | ⟨_, m, hm, hchar⟩
  · exact Reader.not_fatal_literal hs (Reader.fatal_not hnot)
  · exact Reader.not_fatal_satisfy hm.finish hchar

theorem not_reads_commentChar_self {c : Char} : ¬ rd.Reads commentChar s c s := by
  intro h
  obtain ⟨_, _, n, hread, heq⟩ := reads_commentChar.mp h
  have hwidth := Utf8.decode?_width hread
  have hlength := congrArg List.length heq
  rw [List.length_drop] at hlength
  omega

/-- The characters of a comment go on to its end or to the end of the text. -/
theorem eq_nil_of_rejects_commentChar (h : rd.Rejects commentChar u) (hending : ¬ ending <+: u) :
    u = [] := by
  by_contra hne
  obtain ⟨c, n, hread⟩ := Utf8.exists_decode? hne
  exact h.not_reads (reads_commentChar.mpr ⟨h.start, hending, n, hread, rfl⟩)

theorem fatal_comment (hs : s <:+ rd.bytes) (h : rd.run comment s = .fatal e) :
    Unterminated s ∧ e.message = "unterminated comment" ∧ e.offset = rd.input.size := by
  rw [comment_eq] at h
  rcases Reader.fatal_skipRight hs h with hinside | ⟨_, m, hm, hend⟩
  · rcases Reader.fatal_skipLeft hs hinside with hopening | ⟨_, w, hw, hmany⟩
    · exact absurd hopening (Reader.not_fatal_literal hs)
    · obtain ⟨v, _, hv, hchar⟩ := Reader.fatal_many0 hw.finish hmany
      exact absurd hchar (not_fatal_commentChar hv)
  · obtain ⟨_, w, hopening, hmany⟩ := Reader.reads_skipLeft.mp hm
    obtain ⟨_, rfl, _⟩ := Reader.reads_literal.mp hopening
    obtain ⟨_, hchain⟩ := Reader.reads_many0.mp hmany
    rcases Reader.fatal_expected hend with hliteral | ⟨hmiss, hmessage⟩
    · exact absurd hliteral (Reader.not_fatal_literal hm.finish)
    · have hreject := Reader.rejects_of_miss hm.finish hmiss
      have hstop := hchain.rejects fun _ _ => not_reads_commentChar_self
      obtain rfl := eq_nil_of_rejects_commentChar hstop (Reader.rejects_literal_iff.mp hreject).2
      obtain ⟨inside, rfl, hinside⟩ := inside_of_chain hchain
      rw [List.append_nil]
      refine ⟨.mk hinside, hmessage, ?_⟩
      rw [Reader.miss_literal hm.finish hmiss]
      rfl

theorem ignored_of_links (h : Relation.ReflTransGen (rd.Links ignorable) s m) :
    ∃ t, s = t ++ m ∧ Ignored t := by
  induction h using Relation.ReflTransGen.head_induction_on with
  | refl => exact ⟨[], rfl, .nil⟩
  | head h _ ih =>
    obtain ⟨t, rfl, ht⟩ := ih
    obtain ⟨_, hread⟩ := h
    rcases Reader.reads_or.mp hread with hspace | ⟨_, hcomment⟩
    · obtain ⟨⟨_, hspace⟩, _⟩ := Reader.reads_value.mp hspace
      obtain ⟨_, b, rfl, hb, _⟩ := Reader.reads_space.mp hspace
      exact ⟨b :: t, rfl, .space hb ht⟩
    · obtain ⟨⟨_, hcomment⟩, _⟩ := Reader.reads_value.mp hcomment
      obtain ⟨c, rfl, hc⟩ := sound_comment hcomment
      exact ⟨c ++ t, (List.append_assoc _ _ _).symm, .comment hc ht⟩

theorem fatal_ignored (hs : s <:+ rd.bytes) (h : rd.run ignored s = .fatal e) :
    ∃ t m, s = t ++ m ∧ Ignored t ∧ Unterminated m ∧ e.message = "unterminated comment" ∧
      e.offset = rd.input.size := by
  rw [ignored_eq] at h
  obtain ⟨m, hlinks, hm, hfatal⟩ := Reader.fatal_many0 hs h
  obtain ⟨t, rfl, ht⟩ := ignored_of_links hlinks
  rcases Reader.fatal_or hfatal with hspace | hcomment
  · exact absurd (Reader.fatal_map hspace) (Reader.not_fatal_satisfy hm)
  · exact ⟨t, m, rfl, ht, fatal_comment hm (Reader.fatal_map hcomment)⟩

inductive Failure (text : Bytes) : Error → Prop where
  | rootless {u near : Bytes} {position : Position} (h : Leading text u) (hopens : ¬ Opens u) :
      Failure text (.unexpected position near false)
  /-- A root is opened and never complete; the error is placed inside of it. -/
  | inside {u : Bytes} {e : ParseError} (h : Leading text u) (hopens : Opens u)
      (hnone : ∀ root t, Written root t → ¬ t <+: u)
      (hinput : e.input = some (Input.ofBytes [] text))
      (hstart : (text.length - u.length : Int) ≤ e.offset) (hend : e.offset ≤ text.length) :
      Failure text e.toError
  /-- A comment in front of the root or behind it is never closed. -/
  | comment {w m : Bytes} {e : ParseError} (htext : text = w ++ m)
      (hw : Lead w ∨ ∃ root, Document root w) (hm : Unterminated m)
      (hinput : e.input = some (Input.ofBytes [] text))
      (hmessage : e.message = "unterminated comment") (hplace : e.offset = text.length) :
      Failure text e.toError
  | trailing {w u near : Bytes} {root : Element} (htext : text = w ++ u) (hw : Document root w)
      (hu : u ≠ []) :
      Failure text (.unexpected ((Input.ofBytes [] text).position w.length) near true)

section Parsing

variable {text : Bytes} {error : Error}

abbrev readerOf (text : Bytes) : Reader Rule.type := definitions.readerOf 1 text

theorem offsetOf_readerOf (hu : u <:+ text) :
    (readerOf text).offsetOf u = (text.length - u.length : Int) := by
  have hlength := hu.length_le
  have hplace : (readerOf text).offsetOf u = (text.length - u.length : Nat) := rfl
  omega

/-- Errors are about the text that is read, behind where they are raised. -/
theorem placed_of_fatal {α : Type} {p : Grammar α} (hp : p.Keeps .strict definitions)
    (hs : s <:+ text) (h : (readerOf text).run p s = .fatal e) :
    e.input = some (Input.ofBytes [] text) ∧ (text.length - s.length : Int) ≤ e.offset ∧
      e.offset ≤ text.length := by
  have hdefs : ∀ i body, definitions i = some body → body.Keeps .strict definitions := by
    intro i body hbody
    cases i
    cases hbody
    exact keeps_element
  have hwithin := Definitions.parserAt_within (c := .strict) rfl hdefs hp
    (Definitions.depth 1 (Input.ofBytes [] text)) (Input.ofBytes [] text)
    ((readerOf text).offsetOf s) Reader.offsetOf_nonneg Reader.offsetOf_le
  rw [Definitions.parserAt_eq] at hwithin
  rw [← offsetOf_readerOf hs]
  exact hwithin.aborted trivial e h

/-- An error of what is ignored behind a part of the text is a comment without an end. -/
theorem failure_of_ignored {w : Bytes} (htext : text = w ++ s)
    (hw : ∀ t, Ignored t → Lead (w ++ t) ∨ ∃ root, Document root (w ++ t))
    (h : (readerOf text).run ignored s = .fatal e) : Failure text e.toError := by
  have hs : s <:+ text := htext ▸ List.suffix_append w s
  obtain ⟨hinput, _⟩ := placed_of_fatal keeps_ignored hs h
  obtain ⟨t, m, rfl, ht, hm, hmessage, hplace⟩ := fatal_ignored hs h
  rw [← List.append_assoc] at htext
  exact .comment htext (hw t ht) hm hinput hmessage hplace

/-- An error of an element where the root is due: no root is complete there. -/
theorem failure_of_element {v : List Unit × Bytes} {ws : List Unit}
    (hprolog : (readerOf text).Reads prolog text v m)
    (hignored : (readerOf text).Reads ignored m ws u)
    (h : (readerOf text).run element u = .fatal e) : Failure text e.toError := by
  obtain ⟨hleading, _⟩ := leading_iff.mpr ⟨v, m, ws, hprolog, hignored⟩
  obtain ⟨hinput, hstart, hend⟩ := placed_of_fatal keeps_element hignored.finish h
  have hopens : Opens u := by
    by_contra hnot
    obtain ⟨_, next, hmiss⟩ := rejects_element.mpr ⟨hignored.finish, hnot⟩
    rw [h] at hmiss
    cases hmiss
  refine .inside hleading hopens ?_ hinput hstart hend
  rintro root t ht ⟨r, rfl⟩
  have hlength : t.length ≤ Definitions.depth 1 (Input.ofBytes [] text) := by
    have hle := hignored.finish.length_le
    have hbytes : (readerOf text).bytes.length = text.length := rfl
    have hsize : (Input.ofBytes [] text).size = text.length := rfl
    rw [List.length_append] at hle
    unfold Definitions.depth
    omega
  have hread := (complete_element _ _ ht hlength hignored.finish).matched
  rw [h] at hread
  cases hread

theorem failure_of_fatal (h : (readerOf text).run document text = .fatal e) :
    Failure text e.toError := by
  have hs : text <:+ (readerOf text).bytes := List.suffix_rfl
  rw [document_eq] at h
  rcases Reader.fatal_skipLeft hs h with hprolog | ⟨v, m, hprolog, hroot⟩
  · rcases Reader.fatal_and hs hprolog with hignored | ⟨_, _, _, hoptional⟩
    · refine failure_of_ignored (w := []) rfl (fun t ht => .inl ?_) hignored
      simpa using Lead.mk ht (.inl rfl) .nil
    · exact absurd (Reader.fatal_optional hoptional) (Reader.not_fatal_pattern rfl)
  · obtain ⟨before, declaration, htext, hbefore, hdeclaration⟩ := sound_prolog hprolog
    rcases Reader.fatal_skipRight hprolog.finish hroot with hstart | ⟨root, w, hinside, hend⟩
    · rcases Reader.fatal_skipLeft hprolog.finish hstart with hignored | ⟨ws, u, hignored, helement⟩
      · exact failure_of_ignored htext (fun t ht => .inl (.mk hbefore hdeclaration ht)) hignored
      · exact failure_of_element hprolog hignored helement
    · obtain ⟨_, u, hignored, helement⟩ := Reader.reads_skipLeft.mp hinside
      obtain ⟨between, rfl, hbetween⟩ := sound_ignored hignored
      obtain ⟨t, rfl, ht⟩ := sound_element _ _ helement
      rw [← List.append_assoc, ← List.append_assoc] at htext
      refine failure_of_ignored htext (fun t' ht' => .inr ⟨root, ?_⟩) hend
      exact .mk hbefore hdeclaration hbetween ht ht'

/-- Every error of a parse tells one of four things. -/
theorem failure_of_parse (h : (parse text []).result = .ok (.error error)) : Failure text error := by
  have hs : text <:+ (readerOf text).bytes := List.suffix_rfl
  have hjudge : ((readerOf text).run document text).judge (Input.ofBytes [] text) false =
      .ok (.error error) := Definitions.evaluate_eq_judge.symm.trans h
  cases hrun : (readerOf text).run document text with
  | success root next =>
    obtain ⟨u, hread, rfl⟩ := Reader.reads_of_success hs hrun
    obtain ⟨w, htext, hw⟩ := sound_document (sound_element _ _) hread
    have hplace : (readerOf text).offsetOf u = w.length := by
      have hlength := congrArg List.length htext
      rw [List.length_append] at hlength
      have hu : u <:+ text := hread.finish
      rw [offsetOf_readerOf hu]
      omega
    rw [hrun, hplace] at hjudge
    simp only [Outcome.judge] at hjudge
    split at hjudge
    · rename_i hne
      obtain ⟨near, hnear⟩ := Outcome.exists_report (α := Element) (Int.natCast_nonneg w.length) true
      rw [hnear] at hjudge
      cases hjudge
      refine .trailing htext hw ?_
      rintro rfl
      rw [List.append_nil] at htext
      exact hne.1 (congrArg (fun t : Bytes => (t.length : Int)) htext.symm)
    · cases hjudge
  | miss next =>
    have hreject : (readerOf text).Rejects document text := ⟨hs, next, hrun⟩
    obtain ⟨_, u, hleading, hopens⟩ := rejects_document.mp hreject
    obtain ⟨position, near, hunexpected⟩ := Definitions.exists_unexpected hreject
    obtain rfl := Except.error.inj (Except.ok.inj (hunexpected.symm.trans h))
    exact .rootless hleading hopens
  | fatal e =>
    rw [hrun] at hjudge
    obtain rfl : e.toError = error := Except.error.inj (Except.ok.inj hjudge)
    exact failure_of_fatal hrun
  | halted why =>
    rw [hrun] at hjudge
    cases hjudge

/-- A text is reported as unexpected, and not for what follows its root, exactly if no tag opens
where the root is due. -/
theorem parse_unexpected_iff : (∃ position near,
    (parse text []).result = .ok (.error (.unexpected position near false))) ↔
      ∃ u, Leading text u ∧ ¬ Opens u := by
  constructor
  · rintro ⟨position, near, h⟩
    generalize herror : Error.unexpected position near false = error at h
    cases failure_of_parse h with
    | rootless hleading hopens => exact ⟨_, hleading, hopens⟩
    | inside | comment | trailing => cases herror
  · rintro ⟨u, hleading, hopens⟩
    exact Definitions.exists_unexpected (hleading.rejects_document List.suffix_rfl hopens)

end Parsing

end Backtrack.Xml
