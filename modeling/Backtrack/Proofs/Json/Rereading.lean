import Backtrack.Proofs.Decimal.Format
import Backtrack.Proofs.Json.Printing

/-!
# What is printed of a parsed value is read back

A number that is not an integer is printed with its shortest digits. With a point or an exponent
among them these are read as the same number, without as an integer of the same text, if that is not
too large. So what is printed of a value that has been read can be read again, and is printed the
same then.

This module does NOT treat values that are printed as what cannot be read: those with the character
U+007F, with negative zero, or with numbers whose digits without a point make up an integer of more
than 64 bits.
-/

namespace Backtrack.Json

open Numerals Text Decimal Binary64

variable {f : Binary64} {d : Decimal.Digits} {r : ℚ} {sign digits : Bytes}

/-- A text of a sign and digits that ends in `-0` and a digit is that of an exponent of two
digits. -/
theorem eq_of_reverse {mantissa rest : Bytes} {b : UInt8} (hsign : Sign sign)
    (hdigits : Numerals.Digits digits)
    (h : (mantissa ++ Bytes.ascii 'e' :: (sign ++ digits)).reverse = b :: 48 :: 45 :: rest) :
    sign = [Bytes.ascii '-'] ∧ digits = [48, b] ∧
      rest = Bytes.ascii 'e' :: mantissa.reverse := by
  obtain ⟨last, rfl⟩ : ∃ last, digits = last.reverse := ⟨digits.reverse, by simp⟩
  have hall := hdigits.2
  rw [List.all_reverse] at hall
  simp only [List.reverse_append, List.reverse_cons, List.reverse_reverse, List.append_assoc,
    List.singleton_append] at h
  rcases last with _ | ⟨c, _ | ⟨c', _ | ⟨c'', last⟩⟩⟩
  · exact absurd rfl hdigits.1
  all_goals
    simp only [List.cons_append, List.nil_append, List.cons.injEq] at h
    obtain ⟨rfl, h⟩ := h
  · cases hsign with
    | none | plus | minus => exact absurd (List.cons.inj h).1 (by decide)
  · obtain ⟨rfl, h⟩ := h
    cases hsign with
    | none | plus => exact absurd (List.cons.inj h).1 (by decide)
    | minus => exact ⟨rfl, rfl, (List.cons.inj h).2.symm⟩
  · obtain ⟨-, rfl, -⟩ := h
    exact absurd hall (by simp [Bytes.isDigit])

/-- Without the zero in front, an exponent denotes the same. -/
theorem shortExponent_eq (mantissa : Bytes) (e : Int) : ∃ exponent,
    numberFormat.shortExponent (mantissa ++ exponentText e) = mantissa ++ exponent ∧
      Exponent exponent ∧ readExponent? exponent = some e ∧ exponent.any isFractionMark = true := by
  obtain ⟨sign, digits, hsign, hdigits, rfl, heq⟩ := exists_exponentText e
  rw [heq]
  unfold numberFormat.shortExponent
  split
  · rename_i b rest hreverse
    obtain ⟨rfl, rfl, rfl⟩ := eq_of_reverse hsign hdigits hreverse
    have hb : Numerals.Digits [b] := ⟨List.cons_ne_nil _ _, (Bool.and_eq_true _ _ ▸ hdigits.2).2⟩
    refine ⟨Bytes.ascii 'e' :: ([Bytes.ascii '-'] ++ [b]), ?_, .some (.inl rfl) hsign hb, ?_, rfl⟩
    · simp [show Bytes.ascii '-' = 45 from rfl]
    · exact readExponent?_eq (.inl rfl) hsign hb
  · exact ⟨_, rfl, .some (.inl rfl) hsign hdigits, readExponent?_eq (.inl rfl) hsign hdigits, rfl⟩

/-- Digits are printed as what amounts to their value or as those of a natural number. -/
theorem render_cases (h : d.Denotes r) :
    Amounts (numberFormat.render d) r ∨
      ∃ n : Nat, (n : ℚ) = r ∧ numberFormat.render d = Bytes.ofNat n := by
  unfold numberFormat
  dsimp only
  split
  · exact positional_cases h
  · obtain ⟨mantissa, digits, places, hmantissa, heq, hvalue⟩ := exists_scientific h
    obtain ⟨exponent, hshort, hexponent, he, hmark⟩ := shortExponent_eq mantissa d.exponent
    rw [heq, hshort]
    refine .inl ⟨?_, _, _, _, _, _, hmantissa, hexponent, he, rfl, hvalue⟩
    rw [List.any_append, hmark, Bool.or_true]

/-- A number is printed as a numeral that is read as this number, or as an integer next to it. -/
theorem text_cases (hfinite : f.Finite) (hzero : f ≠ .zero true) :
    NumberToken (.float f) (numberFormat.text f) ∨
      ∃ i, numberFormat.text f = Bytes.ofInt i ∧ (i = 0 ∨ f.Covers i.natAbs) := by
  cases hf : f.isZero with
  | true =>
    rw [eq_zero hf] at hzero ⊢
    cases hnegative : f.negative with
    | false => exact .inr ⟨0, by decide +kernel, .inl rfl⟩
    | true => exact absurd (congrArg zero hnegative) hzero
  | false =>
    obtain ⟨r, hdigits, hr⟩ : ∃ r, (numberFormat.digits f).Denotes r ∧ f.Covers r :=
      exists_shortest hf
    rcases render_cases hdigits with hamounts | ⟨n, rfl, heq⟩
    · refine .inl (.float ?_ ?_ (Format.readFloat_text hfinite hf hamounts.value hr))
      · rw [Format.text_of_finite _ hfinite]
        exact hamounts.numeral (sign_negative _)
      · rw [Format.text_of_finite _ hfinite, List.any_append, hamounts.mark, Bool.or_true]
    · have hn : 0 < n := by exact_mod_cast hr.pos hf
      rw [Format.text_of_finite _ hfinite, heq]
      split
      · refine .inr ⟨-n, ?_, .inr ?_⟩
        · rw [Bytes.ofInt, if_pos (by omega), Int.natAbs_neg, Int.natAbs_natCast]
          rfl
        · rwa [Int.natAbs_neg, Int.natAbs_natCast]
      · refine .inr ⟨n, ?_, .inr ?_⟩
        · rw [Bytes.ofInt, if_neg (by omega), Int.natAbs_natCast]
          rfl
        · rwa [Int.natAbs_natCast]

theorem any_fractionMark_ofInt (i : Int) : (Bytes.ofInt i).any isFractionMark = false := by
  obtain ⟨sign, digits, hsign, hdigits, heq, rfl⟩ := exists_signed_ofInt i
  rw [heq, List.any_append, hsign.any_fractionMark, any_fractionMark_digits hdigits.2]
  rfl

theorem mark_of_float {t : Bytes} (h : NumberToken (.float f) t) :
    t.any isFractionMark = true := by
  cases h with
  | float _ hmark => exact hmark

def PrintsInRange (f : Binary64) : Prop :=
  ∀ i, numberFormat.text f = Bytes.ofInt i → -2 ^ 63 ≤ i ∧ i ≤ 2 ^ 63 - 1

/-- Numbers whose magnitude is below `2 ^ 63` are printed as integers of 64 bits, if as integers. -/
theorem printsInRange_of_field_lt (hfield : f.field < 1086) (hzero : f ≠ .zero true) :
    PrintsInRange f := by
  intro i hi
  have hfinite : f.Finite := by
    unfold Binary64.Finite
    omega
  rcases text_cases hfinite hzero with htoken | ⟨i', heq, hcovers⟩
  · have hmark := mark_of_float htoken
    rw [hi, any_fractionMark_ofInt] at hmark
    cases hmark
  · have hsame : i = i' := by
      apply Option.some.inj
      rw [← integer?_ofInt, ← integer?_ofInt, ← hi, heq]
    subst hsame
    rcases hcovers with rfl | hcovers
    · decide
    · have hexponent : f.exponent ≤ 10 := by
        unfold exponent
        omega
      have hlt := hcovers.lt hexponent
      rw [zpow_ofNat] at hlt
      have hlt : i.natAbs < 2 ^ 53 * 2 ^ 10 := by exact_mod_cast hlt
      omega

/-- A value that is printed as what can be read: all its texts are legible, and none of its numbers
is printed as an integer that does not stand for it. -/
inductive Value.Regular : Value → Prop where
  | null : Regular .null
  | bool (b : Bool) : Regular (.bool b)
  | int (i : Int) : Regular (.int i)
  | float {f : Binary64} (hzero : f ≠ .zero true) (hrange : PrintsInRange f) : Regular (.float f)
  | string {s : Bytes} (h : Legible s) : Regular (.string s)
  | array {elements : List Value} (h : ∀ v ∈ elements, Regular v) : Regular (.array elements)
  | object {members : List (Bytes × Value)} (hkeys : ∀ m ∈ members, Legible m.1)
      (h : ∀ m ∈ members, Regular m.2) : Regular (.object members)

/-- What is printed of a value is a document of another one that is printed the same. -/
def Value.Returns (v w : Value) : Prop :=
  ∃ t, v.compact = .ok t ∧ w.compact = .ok t ∧ Written w t

theorem returns_of_exact {v : Value} (h : v.Exact) : v.Returns v := by
  obtain ⟨t, ht, hv⟩ := h.written
  exact ⟨t, ht, ht, hv⟩

variable {t : Bytes}

theorem int_range {i : Int} (h : Written (.int i) t) : -2 ^ 63 ≤ i ∧ i ≤ 2 ^ 63 - 1 := by
  cases h with
  | number htoken =>
    cases htoken with
    | int _ _ hmin hmax => exact ⟨hmin, hmax⟩

theorem finite_of_written (h : Written (.float f) t) : f.Finite := by
  cases h with
  | number htoken =>
    cases htoken with
    | float _ _ hread => exact finite_of_readFloat hread

theorem exists_returns_float (hfinite : f.Finite) (hzero : f ≠ .zero true)
    (hrange : PrintsInRange f) : ∃ w, (Value.float f).Returns w := by
  have hcompact : (Value.float f).compact = .ok (numberFormat.text f) := by
    rw [Value.compact, encodeFloat, hfinite.isNaN_eq, hfinite.isInfinite_eq]
    rfl
  rcases text_cases hfinite hzero with htoken | ⟨i, heq, _⟩
  · exact ⟨.float f, _, hcompact, hcompact, .number htoken (spaced_self _)⟩
  · obtain ⟨hmin, hmax⟩ := hrange i heq
    exact ⟨.int i, _, hcompact, by rw [heq]; rfl,
      heq ▸ .number (numberToken_ofInt hmin hmax) (spaced_self _)⟩

section Lists

variable {α : Type} {L : α → Bytes → Prop} {as : List α}

theorem Commas.exists_of_mem (h : Commas L as t) : ∀ a ∈ as, ∃ u, L a u := by
  induction h with
  | one ha =>
    intro a hmem
    exact ⟨_, List.mem_singleton.mp hmem ▸ ha⟩
  | more ha _ _ ih =>
    intro a hmem
    rcases List.mem_cons.mp hmem with rfl | hmem
    · exact ⟨_, ha⟩
    · exact ih a hmem

theorem Bracketed.exists_of_mem {opening closing : Char} (h : Bracketed opening closing L as t) :
    ∀ a ∈ as, ∃ u, L a u := by
  cases h with
  | empty => simp
  | list _ h => exact h.exists_of_mem

end Lists

theorem compactElements_congr {g : Value → Value} {vs : List Value}
    (h : ∀ v ∈ vs, (g v).compact = v.compact) :
    Value.compactElements (vs.map g) = Value.compactElements vs := by
  induction vs with
  | nil => rfl
  | cons v vs ih =>
    rw [List.forall_mem_cons] at h
    rw [List.map_cons, Value.compactElements, Value.compactElements, h.1, ih h.2]

theorem compactMembers_congr {g : Bytes × Value → Value} {ms : List (Bytes × Value)}
    (h : ∀ m ∈ ms, (g m).compact = m.2.compact) :
    Value.compactMembers (ms.map fun m => (m.1, g m)) = Value.compactMembers ms := by
  induction ms with
  | nil => rfl
  | cons m ms ih =>
    rw [List.forall_mem_cons] at h
    rw [List.map_cons, Value.compactMembers, Value.compactMembers, h.1, ih h.2]

theorem numeral_point {part : Bytes} {b : UInt8} (hsign : Sign sign)
    (hb : Bytes.isDigit b = true) (hpart : Numerals.Digits part) :
    Numeral (sign ++ ([b] ++ Bytes.ascii '.' :: part)) :=
  ⟨sign, [b] ++ Bytes.ascii '.' :: part, [], hsign, .point (by simp [hb]) hpart, .none, by simp⟩

theorem numeral_exponent {b : UInt8} (hb : Bytes.isDigit b = true) (hsign : Sign sign)
    (hdigits : Numerals.Digits digits) : Numeral (b :: Bytes.ascii 'e' :: (sign ++ digits)) :=
  ⟨[], [b], _, .none, .whole ⟨List.cons_ne_nil _ _, by simp [hb]⟩, .some (.inl rfl) hsign hdigits,
    rfl⟩

theorem not_written_large (v : Value) : ¬ Written v "100000000000000000000" := by
  intro h
  rcases token_of_written h rfl (by decide) (by decide) with htoken | ⟨s, hs⟩
  · have hread := (readNumber_iff htoken.numeral).mpr htoken
    have hrange : readInt "100000000000000000000" = .error .outOfRange := by decide +kernel
    unfold readNumber at hread
    rw [if_neg (by decide +kernel), hrange] at hread
    cases hread
  · obtain ⟨items, _, heq⟩ := hs
    exact absurd (List.cons.inj heq).1 (by decide)

theorem not_written_delete (v : Value) : ¬ Written v "\"\x7f\"" := by
  intro h
  rcases token_of_written h rfl (by decide) (by decide) with htoken | ⟨s, hs⟩
  · obtain ⟨b, rest, heq, hb⟩ := htoken.numeral.head
    rw [← (List.cons.inj heq).1] at hb
    exact absurd hb (by decide)
  · exact hs.not_mem (by decide)

instance : Nonempty Value := ⟨.null⟩

theorem exists_returns_array {elements : List Value} (h : ∀ v ∈ elements, ∃ w, v.Returns w) :
    ∃ w, (Value.array elements).Returns w := by
  choose! g hg using h
  have hcongr : Value.compactElements (elements.map g) = Value.compactElements elements := by
    apply compactElements_congr
    intro v hv
    obtain ⟨t, hleft, hright, _⟩ := hg v hv
    rw [hleft, hright]
  have hwritten : ∀ w ∈ elements.map g, ∃ t, w.compact = .ok t ∧ Written w t := by
    rw [List.forall_mem_map]
    intro v hv
    obtain ⟨t, _, hright, hwritten⟩ := hg v hv
    exact ⟨t, hright, hwritten⟩
  obtain ⟨items, hitems, hall⟩ := compactElements_written hwritten
  refine ⟨.array (elements.map g), "[" ++ Bytes.join "," items ++ "]", ?_, ?_,
    .array (bracketed_join hall)⟩
  · rw [Value.compact, ← hcongr, hitems]
    rfl
  · rw [Value.compact, hitems]
    rfl

theorem exists_returns_object {members : List (Bytes × Value)}
    (hkeys : ∀ m ∈ members, Legible m.1) (h : ∀ m ∈ members, ∃ w, m.2.Returns w) :
    ∃ w, (Value.object members).Returns w := by
  choose! g hg using h
  generalize hreturned : members.map (fun m => (m.1, g m)) = returned
  have hcongr : Value.compactMembers returned = Value.compactMembers members := by
    rw [← hreturned]
    apply compactMembers_congr
    intro m hm
    obtain ⟨t, hleft, hright, _⟩ := hg m hm
    rw [hleft, hright]
  have hnames : ∀ m ∈ returned, Legible m.1 := by
    rw [← hreturned, List.forall_mem_map]
    exact hkeys
  have hwritten : ∀ m ∈ returned, ∃ t, m.2.compact = .ok t ∧ Written m.2 t := by
    rw [← hreturned, List.forall_mem_map]
    intro m hm
    obtain ⟨t, _, hright, hwritten⟩ := hg m hm
    exact ⟨t, hright, hwritten⟩
  obtain ⟨items, hitems, hall⟩ := compactMembers_written hnames hwritten
  refine ⟨.object returned, "\x7b" ++ Bytes.join "," items ++ "\x7d", ?_, ?_,
    .object (bracketed_join hall)⟩
  · rw [Value.compact, ← hcongr, hitems]
    rfl
  · rw [Value.compact, hitems]
    rfl

/-- Whatever has been read and is regular is printed as what can be read again. -/
theorem Value.Regular.exists_returns {v : Value} (hv : v.Regular) (h : Written v t) :
    ∃ w, v.Returns w := by
  induction hv generalizing t with
  | null => exact ⟨_, returns_of_exact .null⟩
  | bool b => exact ⟨_, returns_of_exact (.bool b)⟩
  | int i =>
    obtain ⟨hmin, hmax⟩ := int_range h
    exact ⟨_, returns_of_exact (.int hmin hmax)⟩
  | float hzero hrange => exact exists_returns_float (finite_of_written h) hzero hrange
  | string hs => exact ⟨_, returns_of_exact (.string hs)⟩
  | array _ ih =>
    apply exists_returns_array
    intro v hv
    cases h with
    | number htoken => cases htoken
    | array hlist =>
      obtain ⟨u, hu⟩ := hlist.exists_of_mem v hv
      exact ih v hv hu
  | object hkeys _ ih =>
    apply exists_returns_object hkeys
    intro m hm
    cases h with
    | number htoken => cases htoken
    | object hlist =>
      obtain ⟨u, hu⟩ := hlist.exists_of_mem m hm
      cases hu with
      | mk _ _ _ hvalue => exact ih _ hm hvalue

/-- What is printed of a regular value that has been read can be read again, and the value that is
read then is printed the same. -/
theorem reparse_text {text : Bytes} {v : Value} (h : (parse text []).result = .ok (.ok v))
    (hv : v.Regular) :
    ∃ w, (parse v.text []).result = .ok (.ok w) ∧ w.text = v.text := by
  obtain ⟨w, t, hleft, hright, hwritten⟩ := hv.exists_returns (written_of_parse h)
  have hv : v.text = t := by rw [Value.text, hleft]
  have hw : w.text = t := by rw [Value.text, hright]
  rw [hv]
  exact ⟨w, parse_of_written hwritten, hw⟩

/-- A number that comes back as an integer, and two that come back as themselves, the one with a
point and the other with an exponent. -/
def mixture : Value :=
  .array [.float ⟨0x3FF0000000000000⟩, .float ⟨0xBFF8000000000000⟩, .float ⟨0x3E7AD7F29ABCAF48⟩]

theorem written_mixture : Written mixture "[1.0,-1.5,1e-7]" := by
  have hone : Written (.float ⟨0x3FF0000000000000⟩) "1.0" :=
    .number (.float (numeral_point .none (by decide) ⟨by decide, by decide⟩) (by decide)
      (by decide +kernel)) (spaced_self _)
  have hhalf : Written (.float ⟨0xBFF8000000000000⟩) "-1.5" :=
    .number (.float (numeral_point .minus (by decide) ⟨by decide, by decide⟩) (by decide)
      (by decide +kernel)) (spaced_self _)
  have hsmall : Written (.float ⟨0x3E7AD7F29ABCAF48⟩) "1e-7" :=
    .number (.float (numeral_exponent (by decide) .minus ⟨by decide, by decide⟩) (by decide)
      (by decide +kernel)) (spaced_self _)
  exact .array (bracketed_join (.cons hone (.cons hhalf (.cons hsmall .nil))))

theorem regular_mixture : mixture.Regular := by
  have hsmall : ∀ f : Binary64, f.field < 1086 → f ≠ .zero true → (Value.float f).Regular :=
    fun f hfield hzero => .float hzero (printsInRange_of_field_lt hfield hzero)
  refine .array ?_
  simp only [List.forall_mem_cons, List.not_mem_nil, false_imp_iff, implies_true, and_true]
  exact ⟨hsmall _ (by decide) (by decide), hsmall _ (by decide) (by decide),
    hsmall _ (by decide) (by decide)⟩

theorem reparse_text_mixture : (parse "[1.0,-1.5,1e-7]" []).result = .ok (.ok mixture) ∧
    mixture.Regular ∧
    ∃ w, (parse mixture.text []).result = .ok (.ok w) ∧ w.text = mixture.text :=
  ⟨parse_of_written written_mixture, regular_mixture,
    reparse_text (parse_of_written written_mixture) regular_mixture⟩

/-- Negative zero is printed as an integer and comes back as zero, which is printed without the
sign. A large number is printed as an integer that is too large to be read. The character U+007F can
be written as an escape, but is printed as itself. -/
theorem reparse_text_fails :
    ((parse "-0.0" []).result = .ok (.ok (.float (.zero true))) ∧
      (Value.float (.zero true)).text = "-0" ∧
      ∀ w, (parse "-0" []).result = .ok (.ok w) → w.text ≠ "-0") ∧
    ((parse "1e20" []).result = .ok (.ok (.float ⟨0x4415AF1D78B58C40⟩)) ∧
      (Value.float ⟨0x4415AF1D78B58C40⟩).text = "100000000000000000000" ∧
      ∀ w, (parse "100000000000000000000" []).result ≠ .ok (.ok w)) ∧
    ((parse "\"\\u007f\"" []).result = .ok (.ok (.string "\x7f")) ∧
      Utf8.isValid "\x7f" = true ∧ (Value.string "\x7f").text = "\"\x7f\"" ∧
      ∀ w, (parse "\"\x7f\"" []).result ≠ .ok (.ok w)) := by
  refine ⟨⟨parse_of_written ?_, by decide +kernel, ?_⟩,
    ⟨parse_of_written ?_, by decide +kernel, ?_⟩,
    parse_of_written ?_, by decide +kernel, by decide +kernel, ?_⟩
  · exact .number (.float (numeral_point .minus (by decide) ⟨by decide, by decide⟩) (by decide)
      (by decide +kernel)) (spaced_self _)
  · intro w hw
    have hzero : Written (.int (signedValue "-" "0")) "-0" :=
      .number (.int .minus ⟨by decide, by decide⟩ (by decide) (by decide)) (spaced_self _)
    rw [(written_of_parse hw).eq hzero]
    decide +kernel
  · exact .number (.float (numeral_exponent (by decide) .none ⟨by decide, by decide⟩) (by decide)
      (by decide +kernel)) (spaced_self _)
  · exact fun w hw => not_written_large w (written_of_parse hw)
  · exact .string ⟨[.unit 48 48 55 102 (by decide)], by decide +kernel, rfl⟩ (spaced_self _)
  · exact fun w hw => not_written_delete w (written_of_parse hw)

end Backtrack.Json
