import Backtrack.Proofs.Json.Soundness

/-!
# The JSON grammar reads all of JSON

A text of the language is read to its end, with the blanks behind it, wherever it stands and
whatever follows, as long as that does not continue a number. The first byte of a value decides
between the alternatives of the grammar, so the ones before the right one miss and no commit point
is passed too early. The depth of references that a text needs is at most its length.

With soundness this gives the meaning of `parse` without options.
-/

namespace Backtrack.Json

open Numerals Text

variable {rd : Reader Rule.type} {s r t u : Bytes} {α : Type}

def startsValue (b : UInt8) : Bool :=
  startsNumber b || b = Bytes.ascii '\x22' || b = Bytes.ascii 't' || b = Bytes.ascii 'f' ||
    b = Bytes.ascii 'n' || b = Bytes.ascii '[' || b = Bytes.ascii '\x7b'

theorem Bracketed.begins {opening closing : Char} {L : α → Bytes → Prop} {as : List α}
    {kind : UInt8 → Bool} (h : Bracketed opening closing L as t)
    (hspace : isSpaceByte (Bytes.ascii opening) = false)
    (hkind : kind (Bytes.ascii opening) = true) : Begins kind t := by
  cases h with
  | empty hleft => exact (begins_spaced hleft hspace hkind).append _
  | list hleft =>
    rw [List.append_assoc]
    exact (begins_spaced hleft hspace hkind).append _

theorem Written.begins {v : Value} (h : Written v t) : Begins startsValue t := by
  cases h with
  | number hv ht =>
    obtain ⟨b, rest, rfl, hb⟩ := hv.numeral.head
    exact begins_spaced ht (visible_startsNumber.not_space hb) (by simp [startsValue, hb])
  | string hs ht =>
    obtain ⟨items, _, rfl⟩ := hs
    exact begins_spaced ht (by decide) (by decide)
  | true ht | false ht | null ht => exact begins_spaced ht (by decide) (by decide)
  | array h => exact h.begins (by decide) (by decide)
  | object h => exact h.begins (by decide) (by decide)

/-- A document that begins like a number or a string and has no blanks is one. -/
theorem token_of_written {v : Value} {b : UInt8} (h : Written v t) (hhead : t.head? = some b)
    (hb : (startsNumber b || b = Bytes.ascii '\x22') = true) (ht : t.any isSpaceByte = false) :
    NumberToken v t ∨ ∃ s, StringToken s t := by
  obtain ⟨t, rfl⟩ := List.head?_eq_some_iff.mp hhead
  have hspace : isSpaceByte b = false := by
    rw [List.any_cons, Bool.or_eq_false_iff] at ht
    exact ht.1
  suffices hother : Begins (fun c => !(startsNumber c || c = Bytes.ascii '\x22')) (b :: t) ∨
      NumberToken v (b :: t) ∨ ∃ s, StringToken s (b :: t) by
    rcases hother with hbegins | htoken
    · have hkind := kind_of_begins hbegins hspace
      rw [hb] at hkind
      cases hkind
    · exact htoken
  cases h with
  | number hv hspaced => exact .inr (.inl (eq_of_spaced hspaced ht ▸ hv))
  | string hs hspaced => exact .inr (.inr ⟨_, eq_of_spaced hspaced ht ▸ hs⟩)
  | true h | false h | null h => exact .inl (begins_spaced h (by decide) (by decide))
  | array h | object h => exact .inl (h.begins (by decide) (by decide))

theorem MemberOf.begins {L : Value → Bytes → Prop} {w : Bytes × Value} (h : MemberOf L w t) :
    Begins (fun b => b = Bytes.ascii '\x22') t := by
  obtain ⟨⟨items, _, rfl⟩, hkey, _, _⟩ := h
  rw [List.append_assoc]
  exact (begins_spaced hkey (by decide) (by decide)).append _

theorem Commas.begins {L : α → Bytes → Prop} {as : List α} {kind : UInt8 → Bool}
    (h : Commas L as t) (hL : ∀ a t, L a t → Begins kind t) : Begins kind t := by
  cases h with
  | one h => exact hL _ _ h
  | more h =>
    rw [List.append_assoc]
    exact (hL _ _ h).append _

/-- A punctuation mark of JSON: an ASCII character that is no space and continues no numeral. -/
structure Delimiter (c : Char) : Prop where
  ascii : c.toNat < 128
  notSpace : isSpaceByte (Bytes.ascii c) = false
  notNumeral : continuesNumeral (Bytes.ascii c) = false

theorem delimiter_comma : Delimiter ',' := ⟨by decide, by decide, by decide⟩

theorem delimiter_colon : Delimiter ':' := ⟨by decide, by decide, by decide⟩

variable {c : Char}

theorem Delimiter.headNot (hc : Delimiter c) (h : Spaced [Bytes.ascii c] t) (r : Bytes) :
    HeadNot continuesNumeral (t ++ r) := by
  obtain ⟨before, behind, hbefore, _, rfl⟩ := h
  rw [List.append_assoc, List.append_assoc]
  exact headNot_blanks visible_continuesNumeral hbefore (headNot_cons.mpr hc.notNumeral)

theorem Delimiter.begins (hc : Delimiter c) {kind : UInt8 → Bool}
    (h : Spaced [Bytes.ascii c] t) (hkind : kind (Bytes.ascii c) = true) : Begins kind t :=
  begins_spaced h hc.notSpace hkind

theorem Delimiter.reads (hc : Delimiter c) (h : Spaced [Bytes.ascii c] t) (hs : s <:+ rd.bytes)
    (hskip : skip s = skip (t ++ r)) : rd.Reads (token c) s c (skip r) :=
  Reader.reads_trim_char_spaced hc.ascii hc.notSpace h hs hskip

theorem Delimiter.rejects (hc : Delimiter c) (hs : s <:+ rd.bytes)
    (h : HeadNot (· = Bytes.ascii c) (skip s)) : rd.Rejects (token c) s :=
  Reader.rejects_trim_char hc.ascii hs h

theorem Delimiter.length_lt (hc : Delimiter c) {d : Char} (h : rd.Reads (token c) s d u) :
    u.length < s.length := Reader.length_lt_of_trim_char hc.ascii h

theorem reads_number {v : Value} {token : Bytes} (hs : token ++ u <:+ rd.bytes)
    (h : NumberToken v token) (hu : HeadNot continuesNumeral u) :
    rd.Reads ((Term.pattern numberPattern).mapErr readNumber) (token ++ u) v u := by
  have htries := tries_number_all hs (h.numeral.ended hu) (k := some) rfl
  exact Reader.reads_mapErr.mpr
    ⟨token, (Reader.reads_pattern rfl).mpr ⟨hs, rfl, htries⟩, (readNumber_iff h.numeral).mpr h⟩

theorem reads_string {name token : Bytes} (hs : token ++ u <:+ rd.bytes)
    (h : StringToken name token) : rd.Reads string (token ++ u) name u := by
  have htries := tries_string_all hs h (k := some) rfl
  exact Reader.reads_mapErr.mpr
    ⟨token, (Reader.reads_pattern rfl).mpr ⟨hs, rfl, htries⟩, readString_eq h⟩

/-- A term reads every text of a language up to some length, wherever it stands, with the blanks
behind it. What follows must not continue a numeral. -/
def Complete (rd : Reader Rule.type) (p : Grammar α) (L : α → Bytes → Prop) (n : Nat) : Prop :=
  ∀ ⦃a t⦄, L a t → t.length ≤ n → ∀ ⦃s r⦄, s <:+ rd.bytes → HeadNot continuesNumeral r →
    skip s = skip (t ++ r) → rd.Reads p s a (skip r)

section Lists

variable {p : Grammar α} {L : α → Bytes → Prop} {n : Nat} {as : List α}

/-- The first text of a list is read, and the others by as many repetitions. -/
theorem reads_commas (hp : Complete rd p L n) (what : Bytes) (h : Commas L as t)
    (hn : t.length ≤ n) (hs : s <:+ rd.bytes) (hr : HeadNot continuesNumeral r)
    (hcomma : HeadNot (· = Bytes.ascii ',') (skip r)) (hskip : skip s = skip (t ++ r)) :
    ∃ a as' m, as = a :: as' ∧ rd.Reads p s a m ∧
      rd.Chain ((token ',').skipLeft (p.expect what)) m as' (skip r) := by
  induction h generalizing s with
  | @one a t ht =>
    -- No comma follows, so the repetition stops without having committed to an element.
    have hread := hp ht hn hs hr hskip
    have hstop : rd.Rejects (token ',') (skip r) := by
      refine delimiter_comma.rejects hread.finish ?_
      rwa [skip_skip]
    exact ⟨a, [], skip r, rfl, hread, .stop (.inl (Reader.rejects_skipLeft hstop))⟩
  | @more a as t comma u ht hspaced _ ih =>
    simp only [List.length_append] at hn
    simp only [List.append_assoc] at hskip
    have hfollow := delimiter_comma.headNot hspaced (u ++ r)
    have hread := hp ht (by omega) hs hfollow hskip
    have hm := hread.finish
    have hmark := delimiter_comma.reads hspaced hm (skip_skip _)
    obtain ⟨b, as', m, rfl, hb, hchain⟩ := ih (by omega) hmark.finish (skip_skip _)
    have hne : m ≠ skip (comma ++ (u ++ r)) := by
      rintro rfl
      have hlt := delimiter_comma.length_lt hmark
      have hle := hb.rest.length_le
      omega
    refine ⟨a, b :: as', _, rfl, hread, .next ?_ hne hchain⟩
    exact Reader.reads_skipLeft.mpr ⟨_, _, hmark, (Reader.reads_expect what).mpr hb⟩

theorem reads_commaList (hp : Complete rd p L n) (what : Bytes) (h : Commas L as t)
    (hn : t.length ≤ n) (hs : s <:+ rd.bytes) (hr : HeadNot continuesNumeral r)
    (hcomma : HeadNot (· = Bytes.ascii ',') (skip r)) (hskip : skip s = skip (t ++ r)) :
    rd.Reads (commaList p what) s as (skip r) := by
  obtain ⟨a, as', m, rfl, hread, hchain⟩ := reads_commas hp what h hn hs hr hcomma hskip
  have hmany := Reader.reads_many0.mpr ⟨hread.finish, hchain⟩
  exact Reader.reads_map.mpr ⟨(a, as'), Reader.reads_and.mpr ⟨m, hread, hmany⟩, rfl⟩

/-- A list in brackets is read if its elements are, which do not begin like the closing bracket. -/
theorem complete_bracketed (hp : Complete rd p L n) {opening closing : Char}
    (hopening : Delimiter opening) (hclosing : Delimiter closing)
    (hne : Bytes.ascii closing ≠ Bytes.ascii ',')
    (hfirst : ∀ a t, L a t → Begins (fun b => b ≠ Bytes.ascii closing) t)
    (what closingOrWhat closingOrComma : Bytes) :
    Complete rd (bracketed opening closing p what closingOrWhat closingOrComma)
      (Bracketed opening closing L) (n + 1) := by
  intro as t h hn s r hs hr hskip
  cases h with
  | @empty left right hleft hright =>
    rw [List.append_assoc] at hskip
    have hopen := hopening.reads hleft hs hskip
    have hclose := hclosing.reads hright hopen.finish (skip_skip _)
    refine Reader.reads_skipLeft.mpr ⟨_, _, hopen, (Reader.reads_expect _).mpr ?_⟩
    exact Reader.reads_choice_head (Reader.reads_value.mpr ⟨⟨_, hclose⟩, rfl⟩)
  | @list as left t right hleft ht hright =>
    have hpos := Spaced.length_pos hleft
    simp only [List.length_append] at hn
    simp only [List.append_assoc] at hskip
    have hopen := hopening.reads hleft hs hskip
    have hm := hopen.finish
    have hreject : rd.Rejects (token closing) (skip (t ++ (right ++ r))) := by
      refine hclosing.rejects hm ?_
      rw [skip_skip]
      exact ((ht.begins hfirst).append _).headNot fun b hb => by simpa using hb
    have hcomma : HeadNot (· = Bytes.ascii ',') (skip (right ++ r)) := by
      have hbegins : Begins (fun b => b ≠ Bytes.ascii ',') right :=
        hclosing.begins hright (decide_eq_true hne)
      exact (hbegins.append r).headNot fun b hb => by simpa using hb
    have hlist := reads_commaList hp what ht (by omega) hm (hclosing.headNot hright r) hcomma
      (skip_skip _)
    have hclose := hclosing.reads hright hlist.finish (skip_skip _)
    refine Reader.reads_skipLeft.mpr ⟨_, _, hopen, (Reader.reads_expect _).mpr ?_⟩
    refine Reader.reads_choice_tail (Reader.rejects_map hreject) (Reader.reads_choice_head ?_)
    exact Reader.reads_skipRight.mpr ⟨_, _, hlist, (Reader.reads_expect _).mpr hclose⟩

end Lists

theorem complete_member {L : Value → Bytes → Prop} {n : Nat}
    (h : Complete rd (.ref Rule.value) L n) : Complete rd member (MemberOf L) n := by
  rintro _ _ ⟨hname, hkey, hcolon, hL⟩ hn s r hs hr hskip
  rename_i name token key colon v t
  simp only [List.length_append] at hn
  simp only [List.append_assoc] at hskip
  have hstart : ∃ rest, token = Bytes.ascii '\x22' :: rest := by
    obtain ⟨items, _, rfl⟩ := hname
    exact ⟨_, rfl⟩
  obtain ⟨rest, rfl⟩ := hstart
  obtain ⟨behind, hbehind, heq⟩ := skip_spaced hkey (by decide) (colon ++ (t ++ r))
  rw [heq] at hskip
  have hsuffix : (Bytes.ascii '\x22' :: rest) ++ (behind ++ (colon ++ (t ++ r))) <:+ rd.bytes := by
    rw [← hskip]
    exact (skip_suffix s).trans hs
  have hstring := reads_string hsuffix hname
  rw [← hskip] at hstring
  have hkeyRead := Reader.reads_trim.mpr ⟨hs, _, hstring, rfl⟩
  rw [skip_append hbehind] at hkeyRead
  have hmark := delimiter_colon.reads hcolon hkeyRead.finish (skip_skip _)
  have hvalue := h hL (by omega) hmark.finish hr (skip_skip _)
  refine Reader.reads_and.mpr
    ⟨_, hkeyRead, Reader.reads_skipLeft.mpr ⟨':', skip (t ++ r), ?_, ?_⟩⟩
  · exact (Reader.reads_expect _).mpr hmark
  · exact (Reader.reads_expect _).mpr hvalue

def alternatives : List (Grammar Value) := [
  .named "number" ((Term.pattern numberPattern).mapErr readNumber),
  .named "string" (string.map .string),
  .named "bool" ((Term.literals ["true", "false"]).map fun t => .bool (t = Bytes.ofString "true")),
  .named "null" ((Term.literal "null").value .null),
  .named "array" array,
  .named "object" object]

theorem value_eq : value = (Term.choice alternatives).trim := rfl

section Rejections

variable {b : UInt8} (hs : b :: s <:+ rd.bytes)
include hs

theorem rejects_number (hb : startsNumber b = false) :
    rd.Rejects (.named "number" ((Term.pattern numberPattern).mapErr readNumber)) (b :: s) := by
  refine Reader.rejects_named (Reader.rejects_mapErr (Reader.rejects_pattern rfl hs ?_))
  cases htries : Regex.tries rd.input.text (placeOf rd.input.text (b :: s)) numberPattern (b :: s)
      some with
  | none => rfl
  | some u =>
    obtain ⟨numeral, v, hnumeral, heq, _⟩ := of_tries_number hs htries
    obtain ⟨c, rest, rfl, hc⟩ := hnumeral.head
    obtain ⟨rfl, _⟩ := List.cons.inj heq
    rw [hb] at hc
    cases hc

theorem rejects_string (hb : b ≠ Bytes.ascii '\x22') :
    rd.Rejects (.named "string" (string.map Value.string)) (b :: s) := by
  refine Reader.rejects_named (Reader.rejects_map (Reader.rejects_mapErr
    (Reader.rejects_pattern rfl hs ?_)))
  cases htries : Regex.tries rd.input.text (placeOf rd.input.text (b :: s)) stringPattern (b :: s)
      some with
  | none => rfl
  | some u =>
    obtain ⟨name, token, v, ⟨items, _, rfl⟩, heq, _⟩ := of_tries_string hs htries
    exact absurd (List.cons.inj heq).1 hb

theorem rejects_word {c : UInt8} {word : Bytes} (hb : b ≠ c) :
    rd.Rejects (.literal (c :: word)) (b :: s) := by
  refine Reader.rejects_literal hs ?_
  rintro ⟨rest, heq⟩
  exact hb (List.cons.inj heq).1.symm

theorem rejects_bool (ht : b ≠ Bytes.ascii 't') (hf : b ≠ Bytes.ascii 'f') :
    rd.Rejects (.named "bool"
      ((Term.literals ["true", "false"]).map fun t => Value.bool (t = Bytes.ofString "true")))
      (b :: s) := by
  refine Reader.rejects_named (Reader.rejects_map ?_)
  exact Reader.rejects_choice_cons (rejects_word hs ht)
    (Reader.rejects_choice_cons (rejects_word hs hf) (Reader.rejects_choice_nil hs))

theorem rejects_null (hb : b ≠ Bytes.ascii 'n') :
    rd.Rejects (.named "null" ((Term.literal "null").value Value.null)) (b :: s) :=
  Reader.rejects_named (Reader.rejects_map (rejects_word hs hb))

theorem rejects_array (hb : b ≠ Bytes.ascii '[') (hspace : isSpaceByte b = false) :
    rd.Rejects (.named "array" array) (b :: s) := by
  have hopening : Delimiter '[' := ⟨by decide, by decide, by decide⟩
  refine Reader.rejects_named (Reader.rejects_map (Reader.rejects_skipLeft ?_))
  refine hopening.rejects hs ?_
  rw [skip_of_headNot (headNot_cons.mpr hspace)]
  exact headNot_cons.mpr (decide_eq_false hb)

end Rejections

theorem reads_value_of_choice {b : UInt8} {token : Bytes} {v : Value}
    (ht : Spaced (b :: token) t) (hb : isSpaceByte b = false) (hs : s <:+ rd.bytes)
    (hskip : skip s = skip (t ++ r))
    (h : ∀ behind : Bytes, behind.all isSpaceByte = true →
      (b :: token) ++ (behind ++ r) <:+ rd.bytes →
      rd.Reads (.choice alternatives) ((b :: token) ++ (behind ++ r)) v (behind ++ r)) :
    rd.Reads value s v (skip r) := by
  rw [value_eq]
  exact Reader.reads_trim_spaced ht hb hs hskip h

theorem reads_true (hs : Bytes.ofString "true" ++ u <:+ rd.bytes) :
    rd.Reads (.choice alternatives) (Bytes.ofString "true" ++ u) (.bool true) u := by
  have hword : rd.Reads (Term.literals ["true", "false"]) (Bytes.ofString "true" ++ u)
      (Bytes.ofString "true") u :=
    Reader.reads_choice_head (Reader.reads_literal.mpr ⟨hs, rfl, rfl⟩)
  refine Reader.reads_choice_tail (rejects_number hs (by decide)) ?_
  refine Reader.reads_choice_tail (rejects_string hs (by decide)) ?_
  refine Reader.reads_choice_head (Reader.reads_named.mpr ?_)
  exact Reader.reads_map.mpr ⟨_, hword, rfl⟩

theorem reads_false (hs : Bytes.ofString "false" ++ u <:+ rd.bytes) :
    rd.Reads (.choice alternatives) (Bytes.ofString "false" ++ u) (.bool false) u := by
  have hword : rd.Reads (Term.literals ["true", "false"]) (Bytes.ofString "false" ++ u)
      (Bytes.ofString "false") u := by
    refine Reader.reads_choice_tail (rejects_word hs (by decide)) ?_
    exact Reader.reads_choice_head (Reader.reads_literal.mpr ⟨hs, rfl, rfl⟩)
  refine Reader.reads_choice_tail (rejects_number hs (by decide)) ?_
  refine Reader.reads_choice_tail (rejects_string hs (by decide)) ?_
  refine Reader.reads_choice_head (Reader.reads_named.mpr ?_)
  exact Reader.reads_map.mpr ⟨_, hword, rfl⟩

theorem reads_null (hs : Bytes.ofString "null" ++ u <:+ rd.bytes) :
    rd.Reads (.choice alternatives) (Bytes.ofString "null" ++ u) .null u := by
  refine Reader.reads_choice_tail (rejects_number hs (by decide)) ?_
  refine Reader.reads_choice_tail (rejects_string hs (by decide)) ?_
  refine Reader.reads_choice_tail (rejects_bool hs (by decide) (by decide)) ?_
  refine Reader.reads_choice_head (Reader.reads_named.mpr ?_)
  exact Reader.reads_value.mpr ⟨⟨_, Reader.reads_literal.mpr ⟨hs, rfl, rfl⟩⟩, rfl⟩

/-- What an alternative reads that leaves no blanks, a value reads. -/
theorem reads_value_of_skipped {v : Value} (hs : s <:+ rd.bytes)
    (h : rd.Reads (.choice alternatives) (skip s) v (skip r)) : rd.Reads value s v (skip r) := by
  rw [value_eq]
  exact Reader.reads_trim.mpr ⟨hs, skip r, h, (skip_skip r).symm⟩

theorem skip_bracketed {opening closing : Char} {L : α → Bytes → Prop} {as : List α}
    (h : Bracketed opening closing L as t) (hopening : Delimiter opening) (r : Bytes) :
    ∃ rest, skip (t ++ r) = Bytes.ascii opening :: rest := by
  have hbegins : Begins (fun b => b = Bytes.ascii opening) t :=
    h.begins hopening.notSpace (decide_eq_true rfl)
  obtain ⟨b, rest, hskip, hb⟩ := hbegins
  rw [decide_eq_true_eq] at hb
  exact ⟨rest ++ r, hb ▸ skip_append_of_cons hskip r⟩

theorem complete_array {n : Nat} (h : Complete rd (.ref Rule.value) Written n)
    {elements : List Value} {t : Bytes} (hlist : Bracketed '[' ']' Written elements t)
    (hn : t.length ≤ n + 1) (hs : s <:+ rd.bytes) (hr : HeadNot continuesNumeral r)
    (hskip : skip s = skip (t ++ r)) : rd.Reads value s (.array elements) (skip r) := by
  have hopening : Delimiter '[' := ⟨by decide, by decide, by decide⟩
  have hclosing : Delimiter ']' := ⟨by decide, by decide, by decide⟩
  have hfirst : ∀ v t, Written v t → Begins (fun b => b ≠ Bytes.ascii ']') t := by
    refine fun v t hv => hv.begins.mono fun b hb => decide_eq_true ?_
    rintro rfl
    exact absurd hb (by decide)
  have hsuffix := (skip_suffix s).trans hs
  have hread := complete_bracketed h hopening hclosing (by decide) hfirst "value"
    "value or \"]\"" "\",\" or \"]\"" hlist hn hsuffix hr ((skip_skip s).trans hskip)
  refine reads_value_of_skipped hs ?_
  obtain ⟨rest, heq⟩ := skip_bracketed hlist hopening r
  rw [hskip, heq] at hsuffix hread ⊢
  refine Reader.reads_choice_tail (rejects_number hsuffix (by decide)) ?_
  refine Reader.reads_choice_tail (rejects_string hsuffix (by decide)) ?_
  refine Reader.reads_choice_tail (rejects_bool hsuffix (by decide) (by decide)) ?_
  refine Reader.reads_choice_tail (rejects_null hsuffix (by decide)) ?_
  refine Reader.reads_choice_head (Reader.reads_named.mpr ?_)
  exact Reader.reads_map.mpr ⟨_, hread, rfl⟩

theorem complete_object {n : Nat} (h : Complete rd (.ref Rule.value) Written n)
    {members : List (Bytes × Value)} {t : Bytes}
    (hlist : Bracketed '\x7b' '\x7d' (MemberOf Written) members t) (hn : t.length ≤ n + 1)
    (hs : s <:+ rd.bytes) (hr : HeadNot continuesNumeral r) (hskip : skip s = skip (t ++ r)) :
    rd.Reads value s (.object members) (skip r) := by
  have hopening : Delimiter '\x7b' := ⟨by decide, by decide, by decide⟩
  have hclosing : Delimiter '\x7d' := ⟨by decide, by decide, by decide⟩
  have hfirst : ∀ w t, MemberOf Written w t → Begins (fun b => b ≠ Bytes.ascii '\x7d') t := by
    refine fun w t hw => hw.begins.mono fun b hb => decide_eq_true ?_
    rintro rfl
    exact absurd hb (by decide)
  have hsuffix := (skip_suffix s).trans hs
  have hread := complete_bracketed (complete_member h) hopening hclosing (by decide) hfirst
    "string" "string or \"\x7d\"" "\",\" or \"\x7d\"" hlist hn hsuffix hr
    ((skip_skip s).trans hskip)
  refine reads_value_of_skipped hs ?_
  obtain ⟨rest, heq⟩ := skip_bracketed hlist hopening r
  rw [hskip, heq] at hsuffix hread ⊢
  refine Reader.reads_choice_tail (rejects_number hsuffix (by decide)) ?_
  refine Reader.reads_choice_tail (rejects_string hsuffix (by decide)) ?_
  refine Reader.reads_choice_tail (rejects_bool hsuffix (by decide) (by decide)) ?_
  refine Reader.reads_choice_tail (rejects_null hsuffix (by decide)) ?_
  refine Reader.reads_choice_tail (rejects_array hsuffix (by decide) (by decide)) ?_
  refine Reader.reads_choice_head (Reader.reads_named.mpr ?_)
  exact Reader.reads_map.mpr ⟨_, hread, rfl⟩

theorem complete_value_of_ref {n : Nat} (h : Complete rd (.ref Rule.value) Written n) :
    Complete rd value Written (n + 1) := by
  intro v t hv hn s r hs hr hskip
  cases hv with
  | number hv ht =>
    obtain ⟨b, token, rfl, hb⟩ := hv.numeral.head
    refine reads_value_of_choice ht (visible_startsNumber.not_space hb) hs hskip ?_
    intro behind hbehind hsuffix
    refine Reader.reads_choice_head (Reader.reads_named.mpr ?_)
    exact reads_number hsuffix hv (headNot_blanks visible_continuesNumeral hbehind hr)
  | string hname ht =>
    obtain ⟨items, rfl, rfl⟩ := hname
    refine reads_value_of_choice ht (by decide) hs hskip ?_
    intro behind _ hsuffix
    refine Reader.reads_choice_tail (rejects_number hsuffix (by decide)) ?_
    refine Reader.reads_choice_head (Reader.reads_named.mpr ?_)
    exact Reader.reads_map.mpr ⟨_, reads_string hsuffix ⟨items, rfl, rfl⟩, rfl⟩
  | true ht =>
    exact reads_value_of_choice ht (by decide) hs hskip fun _ _ hsuffix => reads_true hsuffix
  | false ht =>
    exact reads_value_of_choice ht (by decide) hs hskip fun _ _ hsuffix => reads_false hsuffix
  | null ht =>
    exact reads_value_of_choice ht (by decide) hs hskip fun _ _ hsuffix => reads_null hsuffix
  | array hlist => exact complete_array h hlist hn hs hr hskip
  | object hlist => exact complete_object h hlist hn hs hr hskip

theorem complete_value (input : Input) (depth : Nat) :
    Complete (definitions.reader depth input) value Written depth := by
  -- A reference stands behind an opening bracket, so what it reads is shorter by one at least.
  induction depth with
  | zero =>
    intro v t hv hn
    obtain ⟨b, rest, hskip, _⟩ := hv.begins
    have hle := (skip_suffix t).length_le
    rw [hskip, List.length_cons] at hle
    omega
  | succ depth ih =>
    refine complete_value_of_ref fun v t hv hn s r hs hr hskip => ?_
    exact (Definitions.reads_ref rfl).mpr (ih hv hn hs hr hskip)

variable {text : Bytes} {v : Value}

theorem written_of_parse (h : (parse text []).result = .ok (.ok v)) : Written v text := by
  unfold parse parser at h
  obtain ⟨t, rfl, hv⟩ := sound_value _ _ (Definitions.evaluate_eq_ok.mp h)
  rwa [List.append_nil]

theorem parse_of_written (h : Written v text) : (parse text []).result = .ok (.ok v) := by
  let input := Input.ofBytes [] text
  have hdepth : text.length ≤ Definitions.depth 1 input := by
    have hsize : input.size = text.length := rfl
    unfold Definitions.depth
    omega
  have hs : text <:+ (definitions.reader (Definitions.depth 1 input) input).bytes :=
    List.suffix_rfl
  have hskip : skip text = skip (text ++ []) := by rw [List.append_nil]
  exact Definitions.evaluate_eq_ok.mpr (complete_value _ _ h hdepth hs headNot_nil hskip)

/-- A text is a document of one value at most. -/
theorem Written.eq {v w : Value} (hv : Written v text) (hw : Written w text) : v = w := by
  have hparse := parse_of_written hv
  rw [parse_of_written hw] at hparse
  cases hparse
  rfl

/-- Parsing without options succeeds exactly for the texts of the language, and yields the value
that the language gives to the text. -/
theorem parse_iff_written (text : Bytes) (v : Value) :
    (parse text []).result = .ok (.ok v) ↔ Written v text :=
  ⟨written_of_parse, parse_of_written⟩

end Backtrack.Json
