import Mathlib.Data.List.Nodup
import Backtrack.Proofs.Parser.Tokens
import Backtrack.Proofs.Regex.Runs
import Backtrack.Proofs.Xml.Language

/-!
# Reading tags

A name is read as far as it goes, and a text in quotes to the next quote of its kind. With these two
facts the grammar of a tag reads the texts of tags and nothing else.
-/

namespace Backtrack.Xml

open Regex Text

section Names

variable {text : Array UInt8} {rd : Reader Rule.type} {s t u : Bytes}

def startClass : CharClass := .ranges [(97, 122), (65, 90), (95, 95)]

def nameClass : CharClass :=
  .ranges [(97, 122), (65, 90), (45, 45), (95, 95), (58, 58), (48, 57)]

theorem namePattern_eq : namePattern = Reader.wordPattern startClass nameClass := rfl

theorem startClass_contains (b : UInt8) : startClass.contains b.toNat = isNameStart b := by
  revert b
  exact Bytes.forall_byte (by decide +kernel)

theorem nameClass_contains (b : UInt8) : nameClass.contains b.toNat = isNameByte b := by
  revert b
  exact Bytes.forall_byte (by decide +kernel)

theorem narrow_startClass : Narrow startClass := narrow_ranges (by decide)

theorem narrow_nameClass : Narrow nameClass := narrow_ranges (by decide)

theorem visible_nameByte : Visible isNameByte := Bytes.forall_byte (by decide +kernel)

theorem visible_nameStart : Visible isNameStart := Bytes.forall_byte (by decide +kernel)

theorem startClass_eq : (fun b : UInt8 => startClass.contains b.toNat) = isNameStart :=
  funext startClass_contains

theorem nameClass_eq : (fun b : UInt8 => nameClass.contains b.toNat) = isNameByte :=
  funext nameClass_contains

theorem rejects_name (hs : s <:+ rd.bytes) (h : HeadNot isNameStart s) : rd.Rejects name s :=
  Reader.rejects_pattern rfl hs (Reader.tries_word_none narrow_startClass hs (startClass_eq ▸ h))

/-- A name is read as far as it goes. -/
theorem reads_name {n : Bytes} : rd.Reads name s n u ↔
    s <:+ rd.bytes ∧ s = n ++ u ∧ Name n ∧ HeadNot isNameByte u := by
  rw [name, namePattern_eq, Reader.reads_word narrow_startClass narrow_nameClass, nameClass_eq]
  simp only [startClass_contains, nameClass_contains]
  constructor
  · rintro ⟨hs, rfl, ⟨b, rest, rfl, hb, hrest⟩, hu⟩
    exact ⟨hs, rfl, .mk hb (List.all_eq_true.mpr hrest), hu⟩
  · rintro ⟨hs, rfl, ⟨hb, hrest⟩, hu⟩
    exact ⟨hs, rfl, ⟨_, _, rfl, hb, List.all_eq_true.mp hrest⟩, hu⟩

end Names

section Quotes

variable {β : Type} {text : Array UInt8} {rd : Reader Rule.type} {s t u : Bytes}
  {k : Bytes → Option β} {x : β}

theorem quotedPattern_eq : quotedPattern =
    .seq (.check .beginText) (.alt (between '\x27') (between '\x22')) := rfl

theorem of_tries_quoted (ht : t <:+ text.toList)
    (h : tries text (placeOf text t) quotedPattern t k = some x) :
    ∃ inside token u, Quoted inside token ∧ t = token ++ u ∧ k u = some x := by
  rw [quotedPattern_eq, tries_anchor ht, tries_alt, Option.or_eq_some_iff] at h
  rcases h with h | ⟨_, h⟩
  · obtain ⟨inside, u, hinside, ht, hu⟩ := of_tries_between (by decide) ht h
    exact ⟨inside, _, u, .mk (.inl rfl) hinside, ht, hu⟩
  · obtain ⟨inside, u, hinside, ht, hu⟩ := of_tries_between (by decide) ht h
    exact ⟨inside, _, u, .mk (.inr rfl) hinside, ht, hu⟩

theorem tries_quoted {inside token : Bytes} (ht : token ++ u <:+ text.toList)
    (h : Quoted inside token) (hu : k u = some x) :
    tries text (placeOf text (token ++ u)) quotedPattern (token ++ u) k = some x := by
  rw [quotedPattern_eq, tries_anchor ht, tries_alt, Option.or_eq_some_iff]
  obtain ⟨rfl | rfl, hinside⟩ := h
  · exact .inl (tries_between (by decide) ht hinside hu)
  · refine .inr ⟨?_, tries_between (by decide) ht hinside hu⟩
    apply Option.eq_none_iff_forall_ne_some.mpr
    intro y hy
    obtain ⟨_, _, _, heq, _⟩ := of_tries_between (by decide) ht hy
    exact absurd (List.cons.inj heq).1 (by decide)

theorem reads_quotedText {v : Bytes} : rd.Reads quotedText s v u ↔
    s <:+ rd.bytes ∧ ∃ token, s = token ++ u ∧ Quoted v token := by
  have hinside : ∀ {quote : UInt8} {inside : Bytes},
      ((quote :: inside ++ [quote]).drop 1).dropLast = inside := by simp
  rw [quotedText, Reader.reads_map]
  constructor
  · rintro ⟨token, htoken, rfl⟩
    obtain ⟨hs, rfl, htries⟩ := (Reader.reads_pattern rfl).mp htoken
    obtain ⟨inside, token', u', hquoted, heq, hu⟩ := of_tries_quoted hs htries
    obtain rfl := Option.some.inj hu
    obtain rfl := List.append_cancel_right heq
    refine ⟨hs, token, rfl, ?_⟩
    obtain ⟨hquote, h⟩ := hquoted
    rw [hinside]
    exact .mk hquote h
  · rintro ⟨hs, token, rfl, h⟩
    refine ⟨token, (Reader.reads_pattern rfl).mpr ⟨hs, rfl, tries_quoted hs h rfl⟩, ?_⟩
    obtain ⟨_, _⟩ := h
    exact hinside

end Quotes

section Attributes

variable {rd : Reader Rule.type} {s t u r : Bytes} {a : Bytes × Bytes} {as : List (Bytes × Bytes)}

theorem Name.head {n : Bytes} (h : Name n) : ∃ b rest, n = b :: rest ∧ isNameStart b = true := by
  obtain ⟨hb, _⟩ := h
  exact ⟨_, _, rfl, hb⟩

theorem Quoted.head {inside token : Bytes} (h : Quoted inside token) :
    ∃ b rest, token = b :: rest ∧ isSpaceByte b = false := by
  obtain ⟨rfl | rfl, _⟩ := h
  · exact ⟨_, _, rfl, by decide⟩
  · exact ⟨_, _, rfl, by decide⟩

theorem Attribute.begins (h : Attribute a t) : Begins isNameStart t := by
  obtain ⟨hname, hkey, _, _⟩ := h
  obtain ⟨b, rest, rfl, hb⟩ := hname.head
  exact (begins_spaced hkey (visible_nameStart.not_space hb) hb).append _

theorem Attribute.length_pos (h : Attribute a t) : 0 < t.length := by
  obtain ⟨b, rest, hskip, _⟩ := h.begins
  have hle := (skip_suffix t).length_le
  rw [hskip, List.length_cons] at hle
  omega

theorem sound_attribute : rd.Sound attributeTerm Attribute := by
  rintro s ⟨n, v⟩ u h
  obtain ⟨m, hm, hrest⟩ := Reader.reads_and.mp h
  obtain ⟨_, m', hn, rfl⟩ := Reader.reads_trim.mp hm
  obtain ⟨_, hskip, hname, _⟩ := reads_name.mp hn
  obtain ⟨key, rfl, hkey⟩ := exists_spaced hskip
  obtain ⟨_, w, hequals, hv⟩ := Reader.reads_skipLeft.mp hrest
  obtain ⟨_, heq, _⟩ := (Reader.reads_char (by decide)).mp (Reader.reads_commit.mp hequals)
  obtain ⟨_, w', hquoted, rfl⟩ := Reader.reads_trim.mp (Reader.reads_commit.mp hv)
  obtain ⟨_, token, hskip', htoken⟩ := reads_quotedText.mp hquoted
  obtain ⟨quoted, rfl, hspaced⟩ := exists_spaced hskip'
  refine ⟨key ++ Bytes.ascii '=' :: quoted, ?_, .mk hname hkey htoken hspaced⟩
  rw [heq, List.append_assoc, List.cons_append]

theorem reads_attribute (h : Attribute a t) (hs : s <:+ rd.bytes) (hskip : skip s = skip (t ++ r)) :
    rd.Reads attributeTerm s a (skip r) := by
  obtain ⟨hname, hkey, htoken, hquoted⟩ := h
  rename_i n key v token quoted
  obtain ⟨b, rest, rfl, hb⟩ := hname.head
  rw [List.append_assoc, List.cons_append] at hskip
  obtain ⟨behind, hbehind, heq⟩ := skip_spaced hkey (visible_nameStart.not_space hb)
    (Bytes.ascii '=' :: (quoted ++ r))
  rw [heq] at hskip
  have hequals : HeadNot isNameByte (Bytes.ascii '=' :: (quoted ++ r)) :=
    headNot_cons.mpr (by decide)
  have hn := reads_name.mpr
    ⟨(skip_suffix s).trans hs, hskip, hname, headNot_blanks visible_nameByte hbehind hequals⟩
  have hkeyRead := Reader.reads_trim.mpr ⟨hs, _, hn, rfl⟩
  rw [skip_append hbehind, skip_of_headNot (headNot_cons.mpr (by decide))] at hkeyRead
  have hmark := (Reader.reads_char (by decide)).mpr ⟨hkeyRead.finish, rfl, rfl⟩
  obtain ⟨d, rest', rfl, hd⟩ := htoken.head
  obtain ⟨behind', hbehind', heq'⟩ := skip_spaced hquoted hd r
  have hv := reads_quotedText.mpr ⟨(skip_suffix _).trans hmark.finish, _, heq', htoken⟩
  have hvalue := Reader.reads_trim.mpr ⟨hmark.finish, _, hv, rfl⟩
  rw [skip_append hbehind'] at hvalue
  apply Reader.reads_and.mpr ⟨_, hkeyRead, ?_⟩
  exact Reader.reads_skipLeft.mpr
    ⟨_, _, Reader.reads_commit.mpr hmark, Reader.reads_commit.mpr hvalue⟩

theorem rejects_attribute (hs : s <:+ rd.bytes) (h : HeadNot isNameStart (skip s)) :
    rd.Rejects attributeTerm s := by
  apply Reader.rejects_and
  exact Reader.rejects_trim hs (rejects_name ((skip_suffix s).trans hs) h)

theorem attributes_of_chain (h : rd.Chain attributeTerm s as u) :
    ∃ t, s = t ++ u ∧ Attributes as t := by
  induction h with
  | stop => exact ⟨[], rfl, .nil⟩
  | next h _ _ ih =>
    obtain ⟨t, rfl, hattribute⟩ := sound_attribute h
    obtain ⟨t', rfl, hrest⟩ := ih
    exact ⟨t ++ t', (List.append_assoc _ _ _).symm, .cons hattribute hrest⟩

/-- Attributes are read to the last one, perhaps with the blanks behind it. -/
theorem chain_of_attributes (h : Attributes as t) (hs : s <:+ rd.bytes)
    (hskip : skip s = skip (t ++ r)) (hr : HeadNot isNameStart (skip r)) :
    ∃ m, rd.Chain attributeTerm s as m ∧ skip m = skip r := by
  induction h generalizing s with
  | nil =>
    rw [List.nil_append] at hskip
    rw [← hskip] at hr
    exact ⟨s, .stop (.inl (rejects_attribute hs hr)), hskip⟩
  | @cons a as t u ha _ ih =>
    rw [List.append_assoc] at hskip
    have hread := reads_attribute ha hs hskip
    obtain ⟨m, hchain, hm⟩ := ih hread.finish (skip_skip _)
    refine ⟨m, .next hread ?_ hchain, hm⟩
    intro heq
    obtain ⟨t', hs', ht'⟩ := sound_attribute hread
    have hpos := ht'.length_pos
    have hlength := congrArg List.length hs'
    rw [heq, List.length_append] at hlength
    omega

theorem duplicate?_eq_none {names seen : List Bytes} :
    duplicate? names seen = none ↔ names.Nodup ∧ ∀ n ∈ names, n ∉ seen := by
  induction names generalizing seen with
  | nil => simp [duplicate?]
  | cons n names ih =>
    unfold duplicate?
    by_cases hn : n ∈ seen
    · simp [hn]
    · rw [if_neg (by simpa using hn), ih, List.nodup_cons, List.forall_mem_cons]
      simp only [List.mem_cons, not_or, forall_and]
      constructor
      · rintro ⟨hnodup, hne, hseen⟩
        exact ⟨⟨fun hmem => hne n hmem rfl, hnodup⟩, hn, hseen⟩
      · rintro ⟨⟨hnames, hnodup⟩, _, hseen⟩
        refine ⟨hnodup, ?_, hseen⟩
        rintro m hm rfl
        exact hnames hm

theorem checkAttributes_eq_ok {bs : List (Bytes × Bytes)} :
    checkAttributes as = .ok bs ↔ bs = as ∧ (as.map Prod.fst).Nodup := by
  have hnone := @duplicate?_eq_none (as.map Prod.fst) []
  unfold checkAttributes
  constructor
  · intro h
    split at h
    · cases h
    · rename_i hfresh
      cases h
      exact ⟨rfl, (hnone.mp hfresh).1⟩
  · rintro ⟨rfl, h⟩
    rw [hnone.mpr ⟨h, by simp⟩]

end Attributes

section Tags

variable {rd : Reader Rule.type} {s t u : Bytes} {tag : OpenTag} {n : Bytes}

theorem reads_tagEnd {selfClosing : Bool} : rd.Reads tagEnd s selfClosing u ↔
    s <:+ rd.bytes ∧ skip s = tagClosing selfClosing ++ u := by
  constructor
  · intro h
    obtain ⟨_, m, hspaces, hend⟩ := Reader.reads_skipLeft.mp h
    obtain rfl := Reader.reads_spaces hspaces
    refine ⟨h.start, ?_⟩
    obtain ⟨p, hp, hread⟩ := Reader.exists_of_reads_choice (Reader.reads_commit.mp hend)
    simp only [List.mem_cons, List.not_mem_nil, or_false] at hp
    rcases hp with rfl | rfl
    · obtain ⟨⟨_, hslash⟩, rfl⟩ := Reader.reads_value.mp hread
      exact (Reader.reads_literal.mp hslash).2.1
    · obtain ⟨⟨_, hangle⟩, rfl⟩ := Reader.reads_value.mp hread
      exact ((Reader.reads_char (by decide)).mp hangle).2.1
  · rintro ⟨hs, hskip⟩
    obtain ⟨cs, hspaces⟩ := Reader.exists_reads_spaces hs
    have hsuffix := hspaces.finish
    apply Reader.reads_skipLeft.mpr ⟨cs, _, hspaces, Reader.reads_commit.mpr ?_⟩
    rw [hskip] at hsuffix ⊢
    cases selfClosing with
    | true =>
      apply Reader.reads_choice_head
      exact Reader.reads_value.mpr ⟨⟨_, Reader.reads_literal.mpr ⟨hsuffix, rfl, rfl⟩⟩, rfl⟩
    | false =>
      apply Reader.reads_choice_tail
      · apply Reader.rejects_map
        apply Reader.rejects_literal hsuffix
        rintro ⟨_, heq⟩
        exact absurd (List.cons.inj heq).1 (by decide)
      · apply Reader.reads_choice_head
        exact Reader.reads_value.mpr
          ⟨⟨_, (Reader.reads_char (by decide)).mpr ⟨hsuffix, rfl, rfl⟩⟩, rfl⟩

theorem headNot_tagClosing (selfClosing : Bool) (u : Bytes) :
    HeadNot isNameByte (tagClosing selfClosing ++ u) := by
  cases selfClosing <;> exact headNot_cons.mpr (by decide)

theorem skip_tagClosing (selfClosing : Bool) (u : Bytes) :
    skip (tagClosing selfClosing ++ u) = tagClosing selfClosing ++ u := by
  cases selfClosing <;> rfl

theorem sound_openTag : rd.Sound openTag Opening := by
  intro s tag u h
  obtain ⟨⟨⟨n, as⟩, selfClosing⟩, hpair, rfl⟩ := Reader.reads_map.mp h
  obtain ⟨m, hm, hend⟩ := Reader.reads_and.mp hpair
  obtain ⟨_, w, hangle, hinside⟩ := Reader.reads_skipLeft.mp hm
  obtain ⟨_, rfl, _⟩ := (Reader.reads_char (by decide)).mp hangle
  obtain ⟨w', hn, has⟩ := Reader.reads_and.mp hinside
  obtain ⟨_, rfl, hname, hmaximal⟩ := reads_name.mp hn
  obtain ⟨as', hmany, hcheck⟩ := Reader.reads_mapErr.mp has
  obtain ⟨rfl, hdistinct⟩ := checkAttributes_eq_ok.mp hcheck
  obtain ⟨t, rfl, hattributes⟩ := attributes_of_chain (Reader.reads_many0.mp hmany).2
  obtain ⟨_, hskip⟩ := reads_tagEnd.mp hend
  obtain ⟨blanks, hblanks, hsplit⟩ := exists_blanks m
  refine ⟨_, ?_, .mk hname hattributes (headNot_of_append hmaximal) hdistinct hblanks⟩
  rw [hsplit, hskip]
  simp

theorem reads_openTag (h : Opening tag t) (hs : t ++ u <:+ rd.bytes) :
    rd.Reads openTag (t ++ u) tag u := by
  obtain ⟨hname, hattributes, hend, hdistinct, hblanks⟩ := h
  rename_i n t blanks as selfClosing
  have hassoc : Bytes.ascii '<' :: (n ++ t ++ blanks ++ tagClosing selfClosing) ++ u =
      Bytes.ascii '<' :: (n ++ (t ++ (blanks ++ (tagClosing selfClosing ++ u)))) := by simp
  rw [hassoc] at hs ⊢
  have hclosing := headNot_tagClosing selfClosing u
  have hangle := (Reader.reads_char (by decide)).mpr ⟨hs, rfl, rfl⟩
  have hrest := headNot_append hend (headNot_blanks visible_nameByte hblanks hclosing)
  have hn := reads_name.mpr ⟨hangle.finish, rfl, hname, hrest⟩
  have hskip : skip (blanks ++ (tagClosing selfClosing ++ u)) = tagClosing selfClosing ++ u :=
    (skip_append hblanks _).trans (skip_tagClosing selfClosing u)
  have hstop : HeadNot isNameStart (skip (blanks ++ (tagClosing selfClosing ++ u))) := by
    rw [hskip]
    apply headNot_mono hclosing
    intro b hb
    simp only [isNameByte, Bool.or_eq_false_iff] at hb
    exact hb.1.1.1
  obtain ⟨m, hchain, hm⟩ := chain_of_attributes hattributes hn.finish rfl hstop
  have hmany := Reader.reads_many0.mpr ⟨hn.finish, hchain⟩
  have has := Reader.reads_mapErr.mpr ⟨_, hmany, checkAttributes_eq_ok.mpr ⟨rfl, hdistinct⟩⟩
  have hclose := reads_tagEnd.mpr ⟨hmany.finish, hm.trans hskip⟩
  apply Reader.reads_map.mpr ⟨((n, as), selfClosing), ?_, rfl⟩
  apply Reader.reads_and.mpr ⟨m, ?_, hclose⟩
  exact Reader.reads_skipLeft.mpr ⟨_, _, hangle, Reader.reads_and.mpr ⟨_, hn, has⟩⟩

theorem rejects_openTag (hs : s <:+ rd.bytes)
    (h : ∀ r, s = Bytes.ascii '<' :: r → HeadNot isNameStart r) : rd.Rejects openTag s := by
  apply Reader.rejects_map
  apply Reader.rejects_and
  apply Reader.rejects_skipLeft_iff.mpr
  by_cases hhead : HeadNot (· = Bytes.ascii '<') s
  · exact .inl (Reader.rejects_char (by decide) hs hhead)
  · rcases s with _ | ⟨b, r⟩
    · exact absurd headNot_nil hhead
    obtain rfl : b = Bytes.ascii '<' := by simpa [headNot_cons] using hhead
    have hangle := (Reader.reads_char (by decide)).mpr ⟨hs, rfl, rfl⟩
    have hn := rejects_name hangle.finish (h r rfl)
    exact .inr ⟨_, r, hangle, Reader.rejects_and hn⟩

theorem Opening.head (h : Opening tag t) :
    ∃ b rest, t = Bytes.ascii '<' :: b :: rest ∧ isNameStart b = true := by
  obtain ⟨hname, _, _, _, _⟩ := h
  obtain ⟨b, rest, rfl, hb⟩ := hname.head
  exact ⟨b, _, rfl, hb⟩

theorem sound_closeTag : rd.Sound (closeTag n) fun _ t => Closing n t := by
  intro s v u h
  obtain ⟨_, m, hm, hend⟩ := Reader.reads_skipRight.mp (Reader.reads_commit.mp h)
  obtain ⟨_, w, hopening, hn⟩ := Reader.reads_skipLeft.mp hm
  obtain ⟨_, rfl, _⟩ := Reader.reads_literal.mp hopening
  obtain ⟨_, rfl, _⟩ := Reader.reads_literal.mp hn
  obtain ⟨_, w', hspaces, hangle⟩ := Reader.reads_skipLeft.mp hend
  obtain rfl := Reader.reads_spaces hspaces
  obtain ⟨_, hskip, _⟩ := (Reader.reads_char (by decide)).mp hangle
  obtain ⟨blanks, hblanks, hsplit⟩ := exists_blanks m
  refine ⟨_, ?_, .mk hblanks⟩
  rw [hsplit, hskip]
  simp
  rfl

theorem reads_closeTag (h : Closing n t) (hs : t ++ u <:+ rd.bytes) :
    rd.Reads (closeTag n) (t ++ u) n u := by
  obtain ⟨hblanks⟩ := h
  rename_i blanks
  have hassoc : "</" ++ n ++ blanks ++ ">" ++ u =
      "</" ++ (n ++ (blanks ++ Bytes.ascii '>' :: u)) := by
    simp
    rfl
  rw [hassoc] at hs ⊢
  have hopening := Reader.reads_literal.mpr ⟨hs, rfl, rfl⟩
  have hn := Reader.reads_literal.mpr ⟨hopening.finish, rfl, rfl⟩
  obtain ⟨cs, hspaces⟩ := Reader.exists_reads_spaces hn.finish
  rw [skip_append hblanks, skip_of_headNot (headNot_cons.mpr (by decide))] at hspaces
  have hangle := (Reader.reads_char (by decide)).mpr ⟨hspaces.finish, rfl, rfl⟩
  have hend := Reader.reads_skipLeft.mpr ⟨_, _, hspaces, hangle⟩
  apply Reader.reads_commit.mpr
  exact Reader.reads_skipRight.mpr ⟨_, _, Reader.reads_skipLeft.mpr ⟨_, _, hopening, hn⟩, hend⟩

end Tags

end Backtrack.Xml
