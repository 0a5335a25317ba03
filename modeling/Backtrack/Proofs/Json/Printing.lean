import Backtrack.Json.Printer
import Backtrack.Proofs.Json.Completeness
import Backtrack.Proofs.Text.Characters

/-!
# Printed JSON is read back

What is printed of a value belongs to the language of JSON documents, as a document of this very
value. So parsing undoes printing wherever both are concerned with the same values.

This module does NOT treat numbers that are not integers: their digits are another matter.
-/

namespace Backtrack.Json

open Numerals Text

/-- A well-formed text without the character U+007F. -/
def Legible (s : Bytes) : Prop := Utf8.isValid s = true ∧ Char.ofNat 127 ∉ Utf8.chars s

/-- How a character is written in a string: items that stand for it. -/
def Spells (items : List StringItem) (c : Char) : Prop :=
  items.flatMap StringItem.bytes = encodeChar c ∧
    ∀ rest, StringItem.text (items ++ rest) = Utf8.encode c ++ StringItem.text rest

theorem spells_short {c : Char} {b d : UInt8} (hb : shortEscape? b = some d)
    (hcode : encodeChar c = [92, b]) (hc : Utf8.encode c = [d]) : Spells [.short b d hb] c := by
  constructor
  · exact hcode.symm
  · intro rest
    rw [hc]
    rfl

theorem isHex_hexDigit {n : Nat} (h : n < 16) : isHex (Bytes.hexDigit n) = true := by
  have hall : ∀ n, n < 16 → isHex (Bytes.hexDigit n) = true := by decide
  exact hall n h

theorem hexValue?_hexDigit {n : Nat} (h : n < 16) :
    Bytes.hexValue? (Bytes.hexDigit n) = some n := by
  have hall : ∀ n, n < 16 → Bytes.hexValue? (Bytes.hexDigit n) = some n := by decide
  exact hall n h

def hexAt (i n : Nat) : UInt8 := Bytes.hexDigit (n / 16 ^ i % 16)

theorem isHex_hexAt (i n : Nat) : isHex (hexAt i n) = true :=
  isHex_hexDigit (Nat.mod_lt _ (by decide))

theorem hex_four (n : Nat) : Bytes.hex 4 n = [hexAt 3 n, hexAt 2 n, hexAt 1 n, hexAt 0 n] := rfl

theorem codeUnit_hexAt {n : Nat} (h : n < 0x10000) :
    codeUnit (hexAt 3 n) (hexAt 2 n) (hexAt 1 n) (hexAt 0 n) = n := by
  have hdigit : ∀ i, Bytes.hexValue? (hexAt i n) = some (n / 16 ^ i % 16) :=
    fun i => hexValue?_hexDigit (Nat.mod_lt _ (by decide))
  simp only [codeUnit, hdigit]
  omega

theorem text_unit {a b c d : UInt8}
    (h : isHex a = true ∧ isHex b = true ∧ isHex c = true ∧ isHex d = true)
    (hlow : codeUnit a b c d < 0xD800 ∨ 0xDC00 ≤ codeUnit a b c d) (rest : List StringItem) :
    StringItem.text (.unit a b c d h :: rest) =
      Utf8.encodeNat (codeUnit a b c d) ++ StringItem.text rest := by
  apply StringItem.text_unit
  intro e f g i h' rest _
  unfold pairSurrogates?
  rw [if_neg]
  simp only [Bool.and_eq_true, decide_eq_true_eq]
  omega

theorem spells_unit {c : Char} (hcode : encodeChar c = "\\u" ++ Bytes.hex 4 c.toNat)
    (h : c.toNat < 0xD800) :
    Spells [.unit (hexAt 3 c.toNat) (hexAt 2 c.toNat) (hexAt 1 c.toNat) (hexAt 0 c.toNat)
      ⟨isHex_hexAt 3 _, isHex_hexAt 2 _, isHex_hexAt 1 _, isHex_hexAt 0 _⟩] c := by
  have hunit := codeUnit_hexAt (n := c.toNat) (by omega)
  constructor
  · rw [hcode, hex_four]
    rfl
  · intro rest
    have hvalid : c.toNat.isValidChar := c.valid
    rw [List.singleton_append, text_unit _ (by omega), hunit, Utf8.encodeNat, if_pos hvalid,
      Char.ofNat_toNat]

theorem all_isPlain_encode {c : Char} (h : isPlainChar c = true) :
    (Utf8.encode c).all isPlain = true := by
  have hchars : Utf8.chars (Utf8.encode c) = [c] := by
    have htext : Utf8.encode c = Utf8.ofChars [c] := by simp [Utf8.ofChars]
    rw [htext, Utf8.chars_ofChars]
  rw [all_isPlain, hchars, List.all_cons, h]
  rfl

theorem encodeChar_cases {c : Char} (hc : c ≠ Char.ofNat 127) :
    (∃ b d, shortEscape? b = some d ∧ encodeChar c = [92, b] ∧ Utf8.encode c = [d]) ∨
      (encodeChar c = "\\u" ++ Bytes.hex 4 c.toNat ∧ c.toNat < 0xD800) ∨
      (encodeChar c = Utf8.encode c ∧ isPlainChar c = true) := by
  have hcode : ∀ {n : Nat}, c.toNat = n → c = Char.ofNat n := by
    rintro n rfl
    exact (Char.ofNat_toNat c).symm
  generalize hwritten : encodeChar c = written
  unfold encodeChar at hwritten
  split at hwritten
  · rename_i h
    simp only [Bool.or_eq_true, decide_eq_true_eq] at h
    rcases h with rfl | rfl
    · exact .inl ⟨34, 34, rfl, hwritten.symm, rfl⟩
    · exact .inl ⟨92, 92, rfl, hwritten.symm, rfl⟩
  rename_i hquote
  split at hwritten
  · rename_i h
    subst h
    exact .inl ⟨110, 10, rfl, hwritten.symm, rfl⟩
  split at hwritten
  · rename_i h
    subst h
    exact .inl ⟨114, 13, rfl, hwritten.symm, rfl⟩
  split at hwritten
  · rename_i h
    subst h
    exact .inl ⟨116, 9, rfl, hwritten.symm, rfl⟩
  split at hwritten
  · rename_i h
    obtain rfl := hcode h
    exact .inl ⟨98, 8, rfl, hwritten.symm, rfl⟩
  split at hwritten
  · rename_i h
    obtain rfl := hcode h
    exact .inl ⟨102, 12, rfl, hwritten.symm, rfl⟩
  split at hwritten
  · rename_i h
    refine .inr (.inl ⟨hwritten.symm, ?_⟩)
    simp only [Bool.or_eq_true, decide_eq_true_eq] at h
    rcases h with ((((h | rfl) | rfl) | rfl) | h) | h
    · omega
    · decide
    · decide
    · decide
    · omega
    · omega
  · rename_i h
    refine .inr (.inr ⟨hwritten.symm, ?_⟩)
    simp only [Bool.or_eq_true, decide_eq_true_eq, not_or] at h hquote
    have hdelete : c.toNat ≠ 127 := fun heq => hc (hcode heq)
    simp only [isPlainChar, Bool.and_eq_true, decide_eq_true_eq]
    exact ⟨⟨⟨by omega, hdelete⟩, hquote.1⟩, hquote.2⟩

/-- Every character but one is written as items that stand for it. -/
theorem exists_spells {c : Char} (hc : c ≠ Char.ofNat 127) : ∃ items, Spells items c := by
  rcases encodeChar_cases hc with ⟨b, d, hb, hcode, hd⟩ | ⟨hcode, hlow⟩ | ⟨hcode, hplain⟩
  · exact ⟨_, spells_short hb hcode hd⟩
  · exact ⟨_, spells_unit hcode hlow⟩
  · have hall := List.all_eq_true.mp (all_isPlain_encode hplain)
    obtain ⟨items, hitems, htext⟩ := exists_plain hall
    exact ⟨items, hitems.trans hcode.symm, htext⟩

theorem exists_spelled {cs : List Char} (hcs : Char.ofNat 127 ∉ cs) :
    ∃ items : List StringItem, items.flatMap StringItem.bytes = cs.flatMap encodeChar ∧
      StringItem.text items = Utf8.ofChars cs := by
  induction cs with
  | nil => exact ⟨[], rfl, rfl⟩
  | cons c cs ih =>
    rw [List.mem_cons, not_or] at hcs
    obtain ⟨items, hitems, htext⟩ := ih hcs.2
    obtain ⟨first, hfirst, hspelled⟩ := exists_spells (Ne.symm hcs.1)
    refine ⟨first ++ items, ?_, ?_⟩
    · rw [List.flatMap_append, List.flatMap_cons, hfirst, hitems]
    · rw [hspelled, htext]
      rfl

/-- A legible text in quotes is a string that stands for it. -/
theorem stringToken_encode {s : Bytes} (h : Legible s) : StringToken s (encode s) := by
  obtain ⟨items, hitems, htext⟩ := exists_spelled h.2
  refine ⟨items, ?_, ?_⟩
  · rw [htext, Utf8.ofChars_chars h.1]
  · rw [hitems]
    rfl

/-- A value that is built without other numbers than integers of 64 bits, and all of whose texts are
legible. -/
inductive Value.Exact : Value → Prop where
  | null : Exact .null
  | bool (b : Bool) : Exact (.bool b)
  | int {i : Int} (hmin : -2 ^ 63 ≤ i) (hmax : i ≤ 2 ^ 63 - 1) : Exact (.int i)
  | string {s : Bytes} (h : Legible s) : Exact (.string s)
  | array {elements : List Value} (h : ∀ v ∈ elements, Exact v) : Exact (.array elements)
  | object {members : List (Bytes × Value)} (hkeys : ∀ m ∈ members, Legible m.1)
      (h : ∀ m ∈ members, Exact m.2) : Exact (.object members)

theorem numberToken_ofInt {i : Int} (hmin : -2 ^ 63 ≤ i) (hmax : i ≤ 2 ^ 63 - 1) :
    NumberToken (.int i) (Bytes.ofInt i) := by
  obtain ⟨sign, digits, hsign, hdigits, heq, rfl⟩ := exists_signed_ofInt i
  rw [heq]
  exact .int hsign hdigits hmin hmax

section Lists

variable {α : Type} {L : α → Bytes → Prop} {as : List α} {items : List Bytes}

theorem commas_join (h : List.Forall₂ L as items) (hne : as ≠ []) :
    Commas L as (Bytes.join "," items) := by
  induction h with
  | nil => exact absurd rfl hne
  | cons ha hrest ih =>
    cases hrest with
    | nil => exact .one ha
    | cons hb hrest => exact .more ha (spaced_self _) (ih (List.cons_ne_nil _ _))

theorem bracketed_join {opening closing : Char} (h : List.Forall₂ L as items) :
    Bracketed opening closing L as
      ([Bytes.ascii opening] ++ Bytes.join "," items ++ [Bytes.ascii closing]) := by
  cases as with
  | nil =>
    cases h
    exact .empty (spaced_self _) (spaced_self _)
  | cons a as => exact .list (spaced_self _) (commas_join h (List.cons_ne_nil _ _)) (spaced_self _)

end Lists

theorem compactElements_written {vs : List Value}
    (h : ∀ v ∈ vs, ∃ t, v.compact = .ok t ∧ Written v t) :
    ∃ items, Value.compactElements vs = .ok items ∧ List.Forall₂ Written vs items := by
  induction vs with
  | nil => exact ⟨[], rfl, .nil⟩
  | cons v vs ih =>
    obtain ⟨t, ht, hv⟩ := h v List.mem_cons_self
    obtain ⟨items, hitems, hall⟩ := ih fun w hw => h w (List.mem_cons_of_mem v hw)
    refine ⟨t :: items, ?_, .cons hv hall⟩
    rw [Value.compactElements, ht, hitems]
    rfl

theorem compactMembers_written {ms : List (Bytes × Value)} (hkeys : ∀ m ∈ ms, Legible m.1)
    (h : ∀ m ∈ ms, ∃ t, m.2.compact = .ok t ∧ Written m.2 t) :
    ∃ items, Value.compactMembers ms = .ok items ∧
      List.Forall₂ (MemberOf Written) ms items := by
  induction ms with
  | nil => exact ⟨[], rfl, .nil⟩
  | cons m ms ih =>
    obtain ⟨key, v⟩ := m
    obtain ⟨t, ht, hv⟩ := h (key, v) List.mem_cons_self
    obtain ⟨items, hitems, hall⟩ := ih (fun w hw => hkeys w (List.mem_cons_of_mem _ hw))
      fun w hw => h w (List.mem_cons_of_mem _ hw)
    have hname := stringToken_encode (hkeys (key, v) List.mem_cons_self)
    refine ⟨(encode key ++ ":" ++ t) :: items, ?_, .cons ?_ hall⟩
    · rw [Value.compactMembers, ht, hitems]
      rfl
    · exact .mk hname (spaced_self _) (spaced_self _) hv

/-- What is printed of a value is a document of this value. -/
theorem Value.Exact.written {v : Value} (h : v.Exact) :
    ∃ t, v.compact = .ok t ∧ Written v t := by
  induction h with
  | null => exact ⟨_, rfl, .null (spaced_self _)⟩
  | bool b =>
    cases b with
    | false => exact ⟨_, rfl, .false (spaced_self _)⟩
    | true => exact ⟨_, rfl, .true (spaced_self _)⟩
  | int hmin hmax => exact ⟨_, rfl, .number (numberToken_ofInt hmin hmax) (spaced_self _)⟩
  | string h => exact ⟨_, rfl, .string (stringToken_encode h) (spaced_self _)⟩
  | @array elements _ ih =>
    obtain ⟨items, hitems, hall⟩ := compactElements_written ih
    refine ⟨"[" ++ Bytes.join "," items ++ "]", ?_, .array (bracketed_join hall)⟩
    rw [Value.compact, hitems]
    rfl
  | @object members hkeys _ ih =>
    obtain ⟨items, hitems, hall⟩ := compactMembers_written hkeys ih
    refine ⟨"\x7b" ++ Bytes.join "," items ++ "\x7d", ?_, .object (bracketed_join hall)⟩
    rw [Value.compact, hitems]
    rfl

/-- A value without other numbers than integers is printed, and parsing what is printed yields the
value again, with its members in order and with every repetition of a key. -/
theorem parse_text {v : Value} (h : v.Exact) :
    ∃ t, v.compact = .ok t ∧ v.text = t ∧ (parse v.text []).result = .ok (.ok v) := by
  obtain ⟨t, ht, hv⟩ := h.written
  have htext : v.text = t := by rw [Value.text, ht]
  rw [htext]
  exact ⟨t, ht, rfl, parse_of_written hv⟩

/-- The least integer, a character that is escaped for the sake of web pages, a control character
and a key that occurs twice. -/
def awkward : Value :=
  .array [.int (-2 ^ 63), .string (Bytes.ofString "</é\u2028\u0000"),
    .object [(Bytes.ofString "k", .null), (Bytes.ofString "k", .array [])]]

theorem awkward_exact : awkward.Exact := by
  refine .array ?_
  simp only [List.forall_mem_cons, List.not_mem_nil, false_imp_iff, implies_true, and_true]
  refine ⟨.int (by decide) (by decide), .string ⟨by decide, by decide⟩, .object ?_ ?_⟩
  · simp only [List.forall_mem_cons, List.not_mem_nil, false_imp_iff, implies_true, and_true]
    exact ⟨⟨by decide, by decide⟩, by decide, by decide⟩
  · simp only [List.forall_mem_cons, List.not_mem_nil, false_imp_iff, implies_true, and_true]
    exact ⟨.null, .array (by simp)⟩

theorem parse_text_awkward :
    awkward.Exact ∧ ∃ t, awkward.compact = .ok t ∧ awkward.text = t ∧
      (parse awkward.text []).result = .ok (.ok awkward) :=
  ⟨awkward_exact, parse_text awkward_exact⟩

end Backtrack.Json
