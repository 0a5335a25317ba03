import Backtrack.Proofs.Json.Completeness

/-!
# The tokens of JSON

What tokens a text can begin with. The first byte tells the kind of a token, and a text begins with
one token at most, because a numeral goes on for as long as it can. Where a numeral ends in front of
another token does not depend on what comes behind that one. The terms of the grammar that match
tokens match exactly these.

This module does NOT say which tokens may follow each other.
-/

namespace Backtrack.Json

open Numerals Text

inductive Kind where
  | number
  | string
  | word
  | mark (c : Char)
  deriving DecidableEq

def words : List Bytes := ["true", "false", "null"]

def marks : List Char := ['[', ']', '\x7b', '\x7d', ',', ':']

inductive Lexeme : Kind → Bytes → Bytes → Prop where
  | number {token u : Bytes} (h : Ended token u) : Lexeme .number token u
  | string {s token u : Bytes} (h : StringToken s token) : Lexeme .string token u
  | word {token u : Bytes} (h : token ∈ words) : Lexeme .word token u
  | mark {c : Char} {u : Bytes} (h : c ∈ marks) : Lexeme (.mark c) [Bytes.ascii c] u

def kindOf (b : UInt8) : Kind :=
  if startsNumber b then .number
  else if b = Bytes.ascii '\x22' then .string
  else if b = Bytes.ascii 't' || b = Bytes.ascii 'f' || b = Bytes.ascii 'n' then .word
  else .mark (Char.ofNat b.toNat)

variable {kind kind' : Kind} {token token' t u u' r : Bytes}

theorem Lexeme.head (h : Lexeme kind token u) :
    ∃ b rest, token = b :: rest ∧ kindOf b = kind ∧ isSpaceByte b = false ∧
      (kind = .number ∨ continuesNumeral b = false) := by
  cases h with
  | number h =>
    obtain ⟨b, rest, rfl, hb⟩ := h.numeral.head
    refine ⟨b, rest, rfl, ?_, visible_startsNumber.not_space hb, .inl rfl⟩
    simp [kindOf, hb]
  | string h =>
    obtain ⟨items, _, rfl⟩ := h
    exact ⟨_, _, rfl, by decide, by decide, .inr (by decide)⟩
  | word h =>
    simp only [words, List.mem_cons, List.not_mem_nil, or_false] at h
    rcases h with rfl | rfl | rfl
    all_goals exact ⟨_, _, rfl, by decide, by decide, .inr (by decide)⟩
  | mark h =>
    simp only [marks, List.mem_cons, List.not_mem_nil, or_false] at h
    rcases h with rfl | rfl | rfl | rfl | rfl | rfl
    all_goals exact ⟨_, _, rfl, by decide, by decide, .inr (by decide)⟩

theorem rest_eq_of_ended (h : Ended token u) (h' : Ended token' u')
    (heq : token ++ u = token' ++ u') : u = u' := by
  have hs : token ++ u <:+ (token ++ u).toArray.toList := List.suffix_rfl
  have hs' : token' ++ u' <:+ (token' ++ u').toArray.toList := List.suffix_rfl
  have htries := tries_number_all hs h (k := some) rfl
  rw [heq, tries_number_all hs' h' (k := some) rfl] at htries
  exact (Option.some.inj htries).symm

theorem rest_eq_of_string {a b : Bytes} (h : StringToken a token) (h' : StringToken b token')
    (heq : token ++ u = token' ++ u') : u = u' := by
  have hs : token ++ u <:+ (token ++ u).toArray.toList := List.suffix_rfl
  have hs' : token' ++ u' <:+ (token' ++ u').toArray.toList := List.suffix_rfl
  have htries := tries_string_all hs h (k := some) rfl
  rw [heq, tries_string_all hs' h' (k := some) rfl] at htries
  exact (Option.some.inj htries).symm

/-- Tokens that texts begin with are the same if the texts are. -/
theorem Lexeme.unique (h : Lexeme kind token u) (h' : Lexeme kind' token' u')
    (heq : token ++ u = token' ++ u') : kind = kind' ∧ token = token' ∧ u = u' := by
  obtain ⟨b, rest, hb, hkind, _⟩ := h.head
  obtain ⟨b', rest', hb', hkind', _⟩ := h'.head
  have hfirst : b = b' := by
    rw [hb, hb'] at heq
    exact (List.cons.inj heq).1
  have hsame : kind = kind' := by rw [← hkind, ← hkind', hfirst]
  subst hsame
  suffices hrest : u = u' by
    subst hrest
    exact ⟨rfl, List.append_cancel_right heq, rfl⟩
  cases h with
  | number h =>
    cases h' with
    | number h' => exact rest_eq_of_ended h h' heq
  | string h =>
    cases h' with
    | string h' => exact rest_eq_of_string h h' heq
  | word h =>
    cases h' with
    | word h' =>
      simp only [words, List.mem_cons, List.not_mem_nil, or_false] at h h'
      rcases h with rfl | rfl | rfl <;> rcases h' with rfl | rfl | rfl
      all_goals first
        | exact List.append_cancel_left heq
        | exact absurd (List.cons.inj heq).1 (by decide)
  | mark h =>
    cases h' with
    | mark h' => exact (List.cons.inj heq).2

def Lacks (kind : Kind) (s : Bytes) : Prop := ∀ token u, Lexeme kind token u → s ≠ token ++ u

theorem Lacks.ne {s : Bytes} (h : Lacks kind s) (htoken : Lexeme kind' token u)
    (heq : s = token ++ u) : kind' ≠ kind := by
  rintro rfl
  exact h token u htoken heq

/-- A text that can take the place of another one behind tokens. -/
structure Replaces (r u : Bytes) : Prop where
  visible : HeadNot isSpaceByte r
  ended : ∀ token, Ended token u → Ended token r

theorem replaces_of_headNot (hspace : HeadNot isSpaceByte r) (hr : HeadNot continuesNumeral r) :
    Replaces r u := ⟨hspace, fun _ h => h.numeral.ended hr⟩

theorem Lexeme.replaces (h : Lexeme kind token u) (r : Bytes) :
    Replaces (token ++ r) (token ++ u) := by
  obtain ⟨b, rest, rfl, _, hspace, hnumber | hb⟩ := h.head
  · refine ⟨headNot_cons.mpr hspace, ?_⟩
    intro token' htoken'
    subst hnumber
    cases h with
    | number h => exact htoken'.behind h.numeral r
  · exact replaces_of_headNot (headNot_cons.mpr hspace) (headNot_cons.mpr hb)

theorem Lexeme.follow (h : Lexeme kind token u) (hr : ∀ token, Ended token u → Ended token r) :
    Lexeme kind token r := by
  cases h with
  | number h => exact .number (hr _ h)
  | string h => exact .string h
  | word h => exact .word h
  | mark h => exact .mark h

/-- Behind blanks nothing belongs to a numeral. -/
theorem Replaces.ended_blanks (h : Replaces r u) {blanks : Bytes}
    (hblanks : blanks.all isSpaceByte = true) (htoken : Ended token (blanks ++ u)) :
    Ended token (blanks ++ r) := by
  cases blanks with
  | nil => exact h.ended token htoken
  | cons b blanks =>
    rw [List.all_cons, Bool.and_eq_true] at hblanks
    apply htoken.numeral.ended
    exact headNot_cons.mpr (visible_continuesNumeral b hblanks.1)

section Reading

variable {rd : Reader Rule.type} {s : Bytes}

/-- The pattern of numbers reads numerals that end where it stops. -/
theorem reads_numberPattern : rd.Reads (.pattern numberPattern) s token u ↔
    s <:+ rd.bytes ∧ s = token ++ u ∧ Ended token u := by
  rw [Reader.reads_pattern rfl]
  constructor
  · rintro ⟨hs, rfl, htries⟩
    obtain ⟨numeral, v, hnumeral, heq, _⟩ := of_tries_number hs htries
    obtain ⟨token', u', hsplit, hended⟩ := exists_ended hnumeral v
    rw [← heq] at hsplit
    have hs' : token' ++ u' <:+ rd.input.text.toList := hsplit ▸ hs
    rw [hsplit, tries_number_all hs' hended (k := some) rfl] at htries
    obtain rfl := Option.some.inj htries
    obtain rfl := List.append_cancel_right hsplit
    exact ⟨hs, rfl, hended⟩
  · rintro ⟨hs, rfl, hended⟩
    exact ⟨hs, rfl, tries_number_all hs hended rfl⟩

theorem reads_stringPattern : rd.Reads (.pattern stringPattern) s token u ↔
    s <:+ rd.bytes ∧ s = token ++ u ∧ ∃ name, StringToken name token := by
  rw [Reader.reads_pattern rfl]
  constructor
  · rintro ⟨hs, rfl, htries⟩
    obtain ⟨name, token', v, htoken, heq, hv⟩ := of_tries_string hs htries
    obtain rfl := Option.some.inj hv
    obtain rfl := List.append_cancel_right heq
    exact ⟨hs, rfl, name, htoken⟩
  · rintro ⟨hs, rfl, name, htoken⟩
    exact ⟨hs, rfl, tries_string_all hs htoken rfl⟩

def mark (c : Char) : Grammar Bytes := (Term.char c).value [Bytes.ascii c]

def terminals : Kind → List (Grammar Bytes)
  | .number => [.pattern numberPattern]
  | .string => [.pattern stringPattern]
  | .word => words.map .literal
  | .mark c => if c ∈ marks then [mark c] else []

theorem ascii_of_mark {c : Char} (hc : c ∈ marks) : c.toNat < 128 := by
  simp only [marks, List.mem_cons, List.not_mem_nil, or_false] at hc
  rcases hc with rfl | rfl | rfl | rfl | rfl | rfl
  all_goals decide

/-- The terms for a kind read its tokens and nothing else. -/
theorem reads_terminal :
    (∃ p ∈ terminals kind, rd.Reads p s token u) ↔
      s <:+ rd.bytes ∧ s = token ++ u ∧ Lexeme kind token u := by
  constructor
  · rintro ⟨p, hp, hread⟩
    refine ⟨hread.start, ?_⟩
    cases kind with
    | number =>
      obtain rfl := List.mem_singleton.mp hp
      obtain ⟨_, hs, hended⟩ := reads_numberPattern.mp hread
      exact ⟨hs, .number hended⟩
    | string =>
      obtain rfl := List.mem_singleton.mp hp
      obtain ⟨_, hs, _, hname⟩ := reads_stringPattern.mp hread
      exact ⟨hs, .string hname⟩
    | word =>
      obtain ⟨word, hword, rfl⟩ := List.mem_map.mp hp
      obtain ⟨_, hs, rfl⟩ := Reader.reads_literal.mp hread
      exact ⟨hs, .word hword⟩
    | mark c =>
      simp only [terminals] at hp
      split at hp
      · rename_i hc
        obtain rfl := List.mem_singleton.mp hp
        obtain ⟨⟨_, hchar⟩, rfl⟩ := Reader.reads_value.mp hread
        exact ⟨((Reader.reads_char (ascii_of_mark hc)).mp hchar).2.1, .mark hc⟩
      · cases hp
  · rintro ⟨hs, heq, htoken⟩
    cases htoken with
    | number hended =>
      exact ⟨_, List.mem_singleton_self _, reads_numberPattern.mpr ⟨hs, heq, hended⟩⟩
    | string hname =>
      exact ⟨_, List.mem_singleton_self _, reads_stringPattern.mpr ⟨hs, heq, _, hname⟩⟩
    | word hword =>
      exact ⟨_, List.mem_map_of_mem hword, Reader.reads_literal.mpr ⟨hs, heq, rfl⟩⟩
    | @mark c _ hc =>
      refine ⟨mark c, ?_, Reader.reads_value.mpr ⟨⟨c, ?_⟩, rfl⟩⟩
      · simp [terminals, hc]
      · exact (Reader.reads_char (ascii_of_mark hc)).mpr ⟨hs, heq, rfl⟩

theorem lacks_of_rejects (hs : s <:+ rd.bytes) (h : ∀ p ∈ terminals kind, rd.Rejects p s) :
    Lacks kind s := by
  intro token u htoken heq
  obtain ⟨p, hp, hread⟩ := reads_terminal.mpr ⟨hs, heq, htoken⟩
  exact (h p hp).not_reads hread

end Reading

end Backtrack.Json
