import Backtrack.Proofs.Json.Numbers
import Backtrack.Proofs.Json.Strings
import Backtrack.Proofs.Parser.Tokens

/-!
# What the JSON grammar reads is JSON

Every match of the grammar consumes a text of the language and has the value of that text, at
whatever depth references are followed. Blanks that a token leaves behind belong to it.
-/

namespace Backtrack.Json

open Text

variable {rd : Reader Rule.type} {s u : Bytes} {α : Type}

theorem sound_number : rd.Sound ((Term.pattern numberPattern).mapErr readNumber) NumberToken := by
  intro s v u h
  obtain ⟨t, ht, hread⟩ := Reader.reads_mapErr.mp h
  obtain ⟨hs, rfl, htries⟩ := (Reader.reads_pattern rfl).mp ht
  obtain ⟨numeral, u', hnumeral, heq, hu⟩ := of_tries_number hs htries
  obtain rfl := Option.some.inj hu
  obtain rfl := List.append_cancel_right heq
  exact ⟨t, rfl, (readNumber_iff hnumeral).mp hread⟩

theorem sound_string : rd.Sound string StringToken := by
  intro s v u h
  obtain ⟨t, ht, hread⟩ := Reader.reads_mapErr.mp h
  obtain ⟨hs, rfl, htries⟩ := (Reader.reads_pattern rfl).mp ht
  obtain ⟨name, token, u', htoken, heq, hu⟩ := of_tries_string hs htries
  obtain rfl := Option.some.inj hu
  obtain rfl := List.append_cancel_right heq
  rw [readString_eq htoken] at hread
  cases hread
  exact ⟨t, rfl, htoken⟩

section Lists

variable {p : Grammar α} {L : α → Bytes → Prop} (hp : rd.Sound p L)
include hp

/-- Every further match of a list adds a comma and a text of the language. -/
theorem commas_of_chain {what t m : Bytes} {a : α} {as : List α}
    (h : rd.Chain ((token ',').skipLeft (p.expect what)) m as u) (ha : L a t) :
    ∃ t', t ++ m = t' ++ u ∧ Commas L (a :: as) t' := by
  induction h generalizing t a with
  | stop => exact ⟨t, rfl, .one ha⟩
  | next h _ _ ih =>
    obtain ⟨_, w, hcomma, hb⟩ := Reader.reads_skipLeft.mp h
    obtain ⟨comma, rfl, hspaced⟩ := Reader.sound_trim_char (by decide) hcomma
    obtain ⟨t₂, rfl, hL⟩ := hp ((Reader.reads_expect _).mp hb)
    obtain ⟨t', heq, hrest⟩ := ih hL
    refine ⟨t ++ comma ++ t', ?_, .more ha hspaced hrest⟩
    simp only [List.append_assoc] at heq ⊢
    rw [heq]

theorem sound_commaList (what : Bytes) : rd.Sound (commaList p what) (Commas L) := by
  intro s as u h
  obtain ⟨⟨a, as⟩, hpair, rfl⟩ := Reader.reads_map.mp h
  obtain ⟨m, hm, hmany⟩ := Reader.reads_and.mp hpair
  obtain ⟨t, rfl, hL⟩ := hp hm
  exact commas_of_chain hp (Reader.reads_many0.mp hmany).2 hL

theorem sound_bracketed {opening closing : Char} (hopening : opening.toNat < 128)
    (hclosing : closing.toNat < 128) (what closingOrWhat closingOrComma : Bytes) :
    rd.Sound (bracketed opening closing p what closingOrWhat closingOrComma)
      (Bracketed opening closing L) := by
  intro s as u h
  obtain ⟨_, m, hm, hinside⟩ := Reader.reads_skipLeft.mp h
  obtain ⟨left, rfl, hleft⟩ := Reader.sound_trim_char hopening hm
  rcases Reader.reads_choice_cons.mp ((Reader.reads_expect _).mp hinside) with hempty | ⟨_, hlist⟩
  · obtain ⟨⟨_, hclose⟩, rfl⟩ := Reader.reads_value.mp hempty
    obtain ⟨right, rfl, hright⟩ := Reader.sound_trim_char hclosing hclose
    exact ⟨left ++ right, (List.append_assoc _ _ _).symm, .empty hleft hright⟩
  · rcases Reader.reads_choice_cons.mp hlist with hlist | ⟨_, hnil⟩
    · obtain ⟨_, w, hw, hclose⟩ := Reader.reads_skipRight.mp hlist
      obtain ⟨t, rfl, ht⟩ := sound_commaList hp what hw
      obtain ⟨right, rfl, hright⟩ :=
        Reader.sound_trim_char hclosing ((Reader.reads_expect _).mp hclose)
      exact ⟨left ++ t ++ right, by simp, .list hleft ht hright⟩
    · exact absurd hnil Reader.not_reads_choice_nil

end Lists

theorem sound_member {L : Value → Bytes → Prop} (h : rd.Sound (.ref Rule.value) L) :
    rd.Sound member (MemberOf L) := by
  rintro s ⟨name, v⟩ u hread
  obtain ⟨m, hm, hrest⟩ := Reader.reads_and.mp hread
  obtain ⟨_, w, hskip, rfl⟩ := Reader.reads_trim.mp hm
  obtain ⟨token, htoken, hname⟩ := sound_string hskip
  obtain ⟨key, rfl, hkey⟩ := exists_spaced htoken
  obtain ⟨_, m', hcolon, hv⟩ := Reader.reads_skipLeft.mp hrest
  obtain ⟨colon, heq, hspaced⟩ :=
    Reader.sound_trim_char (by decide) ((Reader.reads_expect _).mp hcolon)
  obtain ⟨t, rfl, hL⟩ := h ((Reader.reads_expect _).mp hv)
  refine ⟨key ++ colon ++ t, ?_, .mk hname hkey hspaced hL⟩
  rw [heq]
  simp only [List.append_assoc]

/-- Blanks around a list in brackets belong to its brackets. -/
theorem Bracketed.spaced {opening closing : Char} {L : α → Bytes → Prop} {as : List α}
    {before t behind : Bytes} (h : Bracketed opening closing L as t)
    (hbefore : before.all isSpaceByte = true) (hbehind : behind.all isSpaceByte = true) :
    Bracketed opening closing L as (before ++ t ++ behind) := by
  have hleft : ∀ {left}, Spaced [Bytes.ascii opening] left →
      Spaced [Bytes.ascii opening] (before ++ left) := by
    rintro _ ⟨b, e, hb, he, rfl⟩
    exact ⟨before ++ b, e, by rw [List.all_append, hbefore, hb]; rfl, he, by simp⟩
  have hright : ∀ {right}, Spaced [Bytes.ascii closing] right →
      Spaced [Bytes.ascii closing] (right ++ behind) := by
    rintro _ ⟨b, e, hb, he, rfl⟩
    exact ⟨b, e ++ behind, hb, by rw [List.all_append, he, hbehind]; rfl, by simp⟩
  cases h with
  | empty hl hr =>
    have h := Bracketed.empty (L := L) (hleft hl) (hright hr)
    simpa only [List.append_assoc] using h
  | list hl ht hr =>
    have h := Bracketed.list (hleft hl) ht (hright hr)
    simpa only [List.append_assoc] using h

theorem exists_bracketed {opening closing : Char} {L : α → Bytes → Prop} {as : List α}
    {t m : Bytes} (h : Bracketed opening closing L as t) (hs : skip s = t ++ m) :
    ∃ t', s = t' ++ skip m ∧ Bracketed opening closing L as t' := by
  obtain ⟨t', heq, before, behind, hbefore, hbehind, rfl⟩ := exists_spaced hs
  exact ⟨_, heq, h.spaced hbefore hbehind⟩

theorem sound_value_of_ref (h : rd.Sound (.ref Rule.value) Written) : rd.Sound value Written := by
  intro s v u hread
  obtain ⟨_, m, hchoice, rfl⟩ := Reader.reads_trim.mp hread
  obtain ⟨p, hp, hread⟩ := Reader.exists_of_reads_choice hchoice
  simp only [List.mem_cons, List.not_mem_nil, or_false] at hp
  rcases hp with rfl | rfl | rfl | rfl | rfl | rfl
  all_goals rw [Reader.reads_named] at hread
  · obtain ⟨token, hskip, hv⟩ := sound_number hread
    obtain ⟨t, rfl, ht⟩ := exists_spaced hskip
    exact ⟨t, rfl, .number hv ht⟩
  · obtain ⟨name, hstring, rfl⟩ := Reader.reads_map.mp hread
    obtain ⟨token, hskip, hname⟩ := sound_string hstring
    obtain ⟨t, rfl, ht⟩ := exists_spaced hskip
    exact ⟨t, rfl, .string hname ht⟩
  · obtain ⟨token, hword, rfl⟩ := Reader.reads_map.mp hread
    obtain ⟨q, hq, hword⟩ := Reader.exists_of_reads_choice hword
    simp only [List.map_cons, List.map_nil, List.mem_cons, List.not_mem_nil, or_false] at hq
    rcases hq with rfl | rfl
    · obtain ⟨_, hskip, rfl⟩ := Reader.reads_literal.mp hword
      obtain ⟨t, rfl, ht⟩ := exists_spaced hskip
      exact ⟨t, rfl, .true ht⟩
    · obtain ⟨_, hskip, rfl⟩ := Reader.reads_literal.mp hword
      obtain ⟨t, rfl, ht⟩ := exists_spaced hskip
      exact ⟨t, rfl, .false ht⟩
  · obtain ⟨⟨_, hword⟩, rfl⟩ := Reader.reads_value.mp hread
    obtain ⟨_, hskip, _⟩ := Reader.reads_literal.mp hword
    obtain ⟨t, rfl, ht⟩ := exists_spaced hskip
    exact ⟨t, rfl, .null ht⟩
  · obtain ⟨elements, hlist, rfl⟩ := Reader.reads_map.mp hread
    obtain ⟨t, hskip, ht⟩ := sound_bracketed h (by decide) (by decide) _ _ _ hlist
    obtain ⟨t', rfl, ht'⟩ := exists_bracketed ht hskip
    exact ⟨t', rfl, .array ht'⟩
  · obtain ⟨members, hlist, rfl⟩ := Reader.reads_map.mp hread
    obtain ⟨t, hskip, ht⟩ := sound_bracketed (sound_member h) (by decide) (by decide) _ _ _ hlist
    obtain ⟨t', rfl, ht'⟩ := exists_bracketed ht hskip
    exact ⟨t', rfl, .object ht'⟩

/-- Whatever the depth of references, the grammar reads texts of the language only. -/
theorem sound_value (input : Input) (depth : Nat) :
    (definitions.reader depth input).Sound value Written := by
  induction depth with
  -- Where the depth is used up, references break down, so what is read there contains none.
  | zero => exact sound_value_of_ref fun _ _ _ h => absurd h Definitions.not_reads_ref
  | succ depth ih =>
    exact sound_value_of_ref fun _ _ _ h => ih ((Definitions.reads_ref rfl).mp h)

end Backtrack.Json
