import Backtrack.Proofs.Decimal.Shortest

/-!
# Written digits are read back

Digits are written as a mantissa, with or without an exponent, that amounts to what the digits
denote. What amounts to a number around a double-precision number is read as this number.

This module does NOT treat digits that are written out without a point or an exponent, but for
showing that they are those of an integer.
-/

namespace Backtrack.Decimal

open Binary64 Numerals Bytes

variable {x : Binary64} {d : Digits} {sign mantissa exponent digits t : Bytes} {places : Nat}
  {r : ℚ} {e : Int}

/-- What is in the interval of a finite number is neither too small nor too large to be looked
at. -/
theorem places_of_covers {n v : Nat} {scale : Int} (hfinite : x.Finite) (hzero : x.isZero = false)
    (hr : x.Covers (v * 10 ^ scale)) (hge : 10 ^ n ≤ v) (hlt : v < 10 ^ (n + 1)) :
    -330 ≤ (n + 1 : Nat) + scale ∧ (n + 1 : Nat) + scale ≤ 310 := by
  have hunit : (0 : ℚ) < 10 ^ scale := zpow_pos (by norm_num) _
  constructor
  · by_contra hsmall
    have hpow : (2 : ℚ) * 2 ^ 1074 ≤ 10 ^ 331 := by
      exact_mod_cast (by decide +kernel : 2 * 2 ^ 1074 ≤ 10 ^ 331)
    have hplace : (10 : ℚ) ^ ((n + 1 : Nat) + scale) ≤ 10 ^ (-331 : Int) :=
      zpow_le_zpow_right₀ (by norm_num) (by omega)
    have hupper : (v : ℚ) * 10 ^ scale < 10 ^ ((n + 1 : Nat) + scale) := by
      rw [zpow_add₀ (by norm_num), zpow_natCast]
      exact mul_lt_mul_of_pos_right (by exact_mod_cast hlt) hunit
    have hmin : (10 : ℚ) ^ (-331 : Int) ≤ 1 / 2 * 2 ^ (-1074 : Int) := by
      rw [zpow_neg, zpow_neg, one_div, ← mul_inv, zpow_ofNat, zpow_ofNat]
      exact inv_anti₀ (by positivity) hpow
    exact absurd (hr.ge hzero) (not_le.mpr (hupper.trans_le (hplace.trans hmin)))
  · by_contra hlarge
    have hpow : (2 : ℚ) ^ 53 * 2 ^ 971 ≤ 10 ^ 310 := by
      exact_mod_cast (by decide +kernel : 2 ^ 53 * 2 ^ 971 ≤ 10 ^ 310)
    have hplace : (10 : ℚ) ^ (310 : Int) ≤ 10 ^ (n + scale) :=
      zpow_le_zpow_right₀ (by norm_num) (by omega)
    have hlower : (10 : ℚ) ^ (n + scale) ≤ v * 10 ^ scale := by
      rw [zpow_add₀ (by norm_num), zpow_natCast]
      exact mul_le_mul_of_nonneg_right (by exact_mod_cast hge) hunit.le
    have hmax := hr.lt (exponent_le hfinite)
    rw [zpow_ofNat] at hplace hmax
    exact absurd (hplace.trans hlower) (not_le.mpr (hmax.trans_le hpow))

/-- A ratio of a numeral is rounded as a whole. -/
theorem round?_of_covers {n : Numeral} (hfinite : x.Finite) (hzero : x.isZero = false)
    (hdigits : n.digits.all isDigit = true)
    (hr : x.Covers (digitsValue n.digits * 10 ^ n.scale)) :
    n.round? = some (ofFields n.negative x.field x.fraction) := by
  have hvalue : digitsValue n.digits ≠ 0 := by
    intro heq
    have hpos := hr.pos hzero
    rw [heq, Nat.cast_zero, zero_mul] at hpos
    exact absurd rfl hpos.ne
  obtain ⟨b, u, hcons, hge, hlt⟩ := exists_significant hdigits hvalue
  obtain ⟨hleast, hmost⟩ := places_of_covers hfinite hzero hr hge hlt
  have hwhole : Stands (digitsValue n.digits) 1 (digitsValue n.digits) := ⟨by decide, by simp⟩
  have hstands := stands_scale10 hwhole n.scale
  unfold scale10 at hstands
  unfold Numeral.round?
  dsimp only
  rw [digitsValue_dropWhile, hcons, List.length_cons, if_neg (by simpa using hleast),
    if_neg (by omega)]
  split
  · rename_i hscale
    rw [if_pos hscale] at hstands
    exact ofRatio?_of_covers hfinite hzero hstands hr
  · rename_i hscale
    rw [if_neg hscale, Nat.one_mul] at hstands
    exact ofRatio?_of_covers hfinite hzero hstands hr

/-- A numeral without a sign that has a rational number as its value. -/
def Evaluates (t : Bytes) (r : ℚ) : Prop :=
  ∃ mantissa digits places exponent e, Pointed mantissa digits places ∧ Exponent exponent ∧
    readExponent? exponent = some e ∧ t = mantissa ++ exponent ∧
    (digitsValue digits : ℚ) * 10 ^ (e - places) = r

/-- A numeral without a sign that is one of a fraction and has a rational number as its value. -/
structure Amounts (t : Bytes) (r : ℚ) : Prop where
  mark : t.any isFractionMark = true
  value : Evaluates t r

theorem Amounts.numeral (h : Amounts t r) (hsign : Sign sign) : Numerals.Numeral (sign ++ t) := by
  obtain ⟨mantissa, _, _, exponent, _, hmantissa, hexponent, _, rfl, _⟩ := h.value
  exact ⟨sign, mantissa, exponent, hsign, hmantissa.mantissa, hexponent,
    (List.append_assoc _ _ _).symm⟩

/-- What has a number in the interval of a finite number as its value is read as this number. -/
theorem readFloat_of_evaluates (h : Evaluates t r) (hsign : Sign sign) (hfinite : x.Finite)
    (hzero : x.isZero = false) (hr : x.Covers r) :
    readFloat (sign ++ t) =
      .ok (ofFields (decide (sign = [Bytes.ascii '-'])) x.field x.fraction) := by
  obtain ⟨mantissa, digits, places, exponent, e, hmantissa, hexponent, he, rfl, rfl⟩ := h
  have hdigits : digits.all isDigit = true := by
    cases hmantissa with
    | whole hdigits => exact hdigits.2
    | point hwhole hpart => rw [List.all_append, hwhole, hpart.2]; rfl
  unfold readFloat
  rw [← List.append_assoc, read?_eq hsign hmantissa hexponent he]
  dsimp only
  rw [round?_of_covers hfinite hzero hdigits hr]

/-- Whatever is read is finite. -/
theorem finite_of_readFloat (h : readFloat t = .ok x) : x.Finite := by
  unfold readFloat at h
  split at h
  · cases h
  split at h
  · cases h
  rename_i n _ y hround
  cases h
  unfold Numeral.round? at hround
  dsimp only at hround
  split at hround
  · exact Option.some.inj hround ▸ finite_zero
  split at hround
  · cases hround
  split at hround
  · exact finite_of_ofRatio? (by decide) hround
  · exact finite_of_ofRatio? (Nat.pow_pos (by decide)) hround

theorem Format.text_of_finite (F : Format) (hfinite : x.Finite) :
    F.text x = (if x.negative then [Bytes.ascii '-'] else []) ++ F.render (F.digits x) := by
  unfold Format.text
  simp only [hfinite.isNaN_eq, hfinite.isInfinite_eq, Bool.false_eq_true, if_false]
  split
  · rfl
  · rfl

theorem sign_negative (negative : Bool) : Sign (if negative then [Bytes.ascii '-'] else []) := by
  split
  · exact .minus
  · exact .none

/-- A number whose digits are written as what has a number in its interval as its value is read
back. -/
theorem Format.readFloat_text {F : Format} (hfinite : x.Finite) (hzero : x.isZero = false)
    (h : Evaluates (F.render (F.digits x)) r) (hr : x.Covers r) :
    readFloat (F.text x) = .ok x := by
  have hnegative : decide ((if x.negative then [Bytes.ascii '-'] else []) = [Bytes.ascii '-']) =
      x.negative := by
    cases x.negative <;> rfl
  rw [F.text_of_finite hfinite, readFloat_of_evaluates h (sign_negative _) hfinite hzero hr,
    hnegative, ofFields_eq]

/-- Digits that are asked for by their index are there or zeros behind the others. -/
theorem map_digitAt (ds : List Nat) (n : Nat) :
    (List.range n).map (digitAt ds) = ds.take n ++ List.replicate (n - ds.length) 0 := by
  apply List.ext_getElem
  · simp only [List.length_map, List.length_range, List.length_append, List.length_take,
      List.length_replicate]
    omega
  · intro i hleft hright
    rw [List.length_map, List.length_range] at hleft
    rw [List.getElem_map, List.getElem_range, List.getElem_append, digitAt]
    split
    · rename_i hi
      rw [List.length_take] at hi
      rw [List.getElem_take, List.getElem?_eq_getElem (by omega), Option.getD_some]
    · rename_i hi
      rw [List.length_take] at hi
      rw [List.getElem_replicate, List.getElem?_eq_none (by omega), Option.getD_none]

theorem amounts_point {whole part : Bytes} (hwhole : whole.all isDigit = true)
    (hpart : Numerals.Digits part) :
    Amounts (whole ++ Bytes.ascii '.' :: part)
      (digitsValue (whole ++ part) * 10 ^ (-(part.length : Int))) := by
  constructor
  · rw [List.any_append, List.any_cons, isFractionMark, Bool.or_eq_true, Bool.or_eq_true]
    exact .inr (.inl rfl)
  · refine ⟨_, _, _, [], 0, .point hwhole hpart, .none, rfl, (List.append_nil _).symm, ?_⟩
    rw [zero_sub]

theorem evaluates_ofNat (n : Nat) : Evaluates (ofNat n) n := by
  refine ⟨_, _, 0, [], 0, .whole (digits_ofNat n), .none, rfl, (List.append_nil _).symm, ?_⟩
  rw [digitsValue_ofNat]
  simp

section Positional

variable (h : d.Denotes r)
include h

/-- Written without a point, digits are those of a natural number. -/
theorem positional_whole (hpoint : (d.digits.length : Int) ≤ d.point) :
    ∃ n : Nat, (n : ℚ) = r ∧ d.positional = ofNat n := by
  obtain ⟨b, t, hcons, hb⟩ := h.head
  have hlength := length_asciiDigits d.digits
  rw [hcons, List.length_cons] at hlength
  have htext : d.positional =
      b :: (t ++ List.replicate (d.point.toNat - d.digits.length) 48) := by
    unfold Digits.positional
    dsimp only
    rw [if_pos (by omega), if_pos (by omega), map_digitAt, List.take_of_length_le (by omega),
      asciiDigits_append, asciiDigits_zeros, hcons, List.cons_append]
  have hall : (b :: (t ++ List.replicate (d.point.toNat - d.digits.length) 48)).all isDigit =
      true := by
    rw [← List.cons_append, List.all_append, ← hcons, h.digits]
    simp [isDigit]
  refine ⟨digitsValue d.positional, ?_, ?_⟩
  · have hplaces : d.point - d.digits.length = (d.point.toNat - d.digits.length : Nat) := by omega
    rw [← h.value, htext, ← List.cons_append, ← hcons, digitsValue_append, digitsValue_zeros,
      List.length_replicate, Nat.add_zero, hplaces, zpow_natCast]
    push_cast
    rfl
  · rw [htext, ofNat_digitsValue hall hb]

theorem positional_mixed (hzero : 0 < d.point) (hpoint : d.point < d.digits.length) :
    Amounts d.positional r := by
  have hsplit := List.take_append_drop d.point.toNat d.digits
  have hdigits := h.digits
  rw [← hsplit, asciiDigits_append, List.all_append, Bool.and_eq_true] at hdigits
  have htext : d.positional = asciiDigits (d.digits.take d.point.toNat) ++
      Bytes.ascii '.' :: asciiDigits (d.digits.drop d.point.toNat) := by
    unfold Digits.positional
    dsimp only
    rw [if_pos hzero, if_neg (by omega), map_digitAt, Nat.sub_eq_zero_of_le (by omega),
      show (-d.point).toNat = 0 by omega, Nat.zero_min, List.replicate_zero, List.append_nil,
      List.nil_append, List.append_assoc]
    rfl
  have hpart : Numerals.Digits (asciiDigits (d.digits.drop d.point.toNat)) := by
    refine ⟨?_, hdigits.2⟩
    rw [← List.length_pos_iff, length_asciiDigits, List.length_drop]
    omega
  have hamounts := amounts_point hdigits.1 hpart
  rw [← asciiDigits_append, hsplit, length_asciiDigits, List.length_drop,
    show (-((d.digits.length - d.point.toNat : Nat) : Int)) = d.point - d.digits.length by omega,
    h.value] at hamounts
  rw [htext]
  exact hamounts

theorem positional_part (hzero : d.point ≤ 0) : Amounts d.positional r := by
  obtain ⟨b, t, hcons, _⟩ := h.head
  have hlength := length_asciiDigits d.digits
  rw [hcons, List.length_cons] at hlength
  generalize hzeros : (List.replicate (-d.point).toNat 48 : Bytes) = zeros
  have htext : d.positional = "0" ++ Bytes.ascii '.' :: (zeros ++ asciiDigits d.digits) := by
    unfold Digits.positional
    dsimp only
    rw [if_neg (by omega), if_neg (by omega), Nat.min_eq_left (by omega),
      show d.point.toNat = 0 by omega, List.drop_zero, asciiDigits_append, asciiDigits_zeros,
      hzeros, List.append_assoc]
    rfl
  have hpart : Numerals.Digits (zeros ++ asciiDigits d.digits) := by
    refine ⟨?_, ?_⟩
    · rw [hcons]
      simp
    · rw [List.all_append, h.digits, ← hzeros]
      simp [isDigit]
  have hwhole : ("0" : Bytes).all isDigit = true := by decide
  have hamounts := amounts_point hwhole hpart
  have hvalue : digitsValue ("0" ++ (zeros ++ asciiDigits d.digits)) =
      digitsValue (asciiDigits d.digits) := by
    rw [digitsValue_append, digitsValue_append, ← hzeros, digitsValue_zeros]
    simp [show digitsValue "0" = 0 from rfl]
  rw [hvalue, List.length_append, ← hzeros, List.length_replicate, length_asciiDigits,
    show (-(((-d.point).toNat + d.digits.length : Nat) : Int)) = d.point - d.digits.length by omega,
    h.value] at hamounts
  rw [htext, ← hzeros]
  exact hamounts

theorem positional_cases :
    Amounts d.positional r ∨ ∃ n : Nat, (n : ℚ) = r ∧ d.positional = ofNat n := by
  rcases le_or_gt (d.digits.length : Int) d.point with hpoint | hpoint
  · exact .inr (positional_whole h hpoint)
  rcases le_or_gt d.point 0 with hzero | hzero
  · exact .inl (positional_part h hzero)
  · exact .inl (positional_mixed h hzero hpoint)

end Positional

/-- An exponent is written as a sign and digits that denote it. -/
theorem exists_exponentText (e : Int) :
    ∃ sign digits, Sign sign ∧ Numerals.Digits digits ∧ signedValue sign digits = e ∧
      exponentText e = Bytes.ascii 'e' :: (sign ++ digits) := by
  have hofNat := digits_ofNat e.natAbs
  obtain ⟨digits, heq, hdigits, hvalue⟩ : ∃ digits,
      (if (ofNat e.natAbs).length < 2 then "0" ++ ofNat e.natAbs else ofNat e.natAbs) = digits ∧
        Numerals.Digits digits ∧ digitsValue digits = e.natAbs := by
    split
    · refine ⟨_, rfl, ⟨List.cons_ne_nil _ _, ?_⟩, ?_⟩
      · rw [List.all_append, hofNat.2]
        rfl
      · rw [digitsValue_append, digitsValue_ofNat, show digitsValue "0" = 0 from rfl, Nat.zero_mul,
          Nat.zero_add]
    · exact ⟨_, rfl, hofNat, digitsValue_ofNat _⟩
  unfold exponentText
  dsimp only
  rw [heq]
  split
  · refine ⟨_, digits, .minus, hdigits, ?_, rfl⟩
    rw [signedValue, if_pos rfl, hvalue]
    omega
  · refine ⟨_, digits, .plus, hdigits, ?_, rfl⟩
    rw [signedValue, if_neg (by decide), hvalue]
    omega

/-- With an exponent, digits are written as a mantissa that keeps them all. -/
theorem exists_scientific (h : d.Denotes r) :
    ∃ mantissa digits places, Pointed mantissa digits places ∧
      d.scientific 0 = mantissa ++ exponentText d.exponent ∧
      (digitsValue digits : ℚ) * 10 ^ (d.exponent - places) = r := by
  obtain ⟨_, _, hcons, _⟩ := h.head
  have hdigits := h.digits
  have hvalue := h.value
  unfold Digits.scientific Digits.exponent
  generalize d.digits = ds at *
  cases ds with
  | nil => cases hcons
  | cons first rest =>
    have hsplit : asciiDigits (first :: rest) = asciiDigits [first] ++ asciiDigits rest := rfl
    have hrest : (List.range (max 0 ((first :: rest).length - 1))).map
        (fun i => digitAt (first :: rest) (i + 1)) = rest := by
      have heq := map_digitAt rest rest.length
      rw [List.take_length, Nat.sub_self, List.replicate_zero, List.append_nil] at heq
      rw [Nat.zero_max]
      exact heq
    rw [hsplit, List.all_append, Bool.and_eq_true] at hdigits
    dsimp only
    rw [hrest]
    cases rest with
    | nil =>
      simp only [List.isEmpty_nil, List.isEmpty_cons, Bool.false_eq_true, if_true, if_false,
        List.append_nil]
      exact ⟨asciiDigits [first], asciiDigits [first], 0,
        .whole ⟨List.cons_ne_nil _ _, hdigits.1⟩, rfl, by simpa using hvalue⟩
    | cons second rest =>
      simp only [List.isEmpty_cons, Bool.false_eq_true, if_false]
      refine ⟨asciiDigits [first] ++ Bytes.ascii '.' :: asciiDigits (second :: rest), _, _,
        .point hdigits.1 ⟨List.cons_ne_nil _ _, hdigits.2⟩, rfl, ?_⟩
      rw [← hsplit, length_asciiDigits, ← hvalue, List.length_cons (a := first)]
      congr 2
      push_cast
      ring

end Backtrack.Decimal
