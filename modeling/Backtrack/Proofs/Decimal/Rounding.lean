import Mathlib.Algebra.Order.Field.Power
import Mathlib.Algebra.Order.Field.Rat
import Mathlib.Tactic.FieldSimp
import Mathlib.Tactic.Linarith
import Mathlib.Tactic.NormNum
import Mathlib.Tactic.Positivity
import Mathlib.Tactic.Ring
import Backtrack.Decimal.Binary64

/-!
# Rounding to double-precision numbers

What rounding a ratio in exact arithmetic comes to, in terms of the rational number that the ratio
stands for. Around each finite number lies an interval of rationals, between the two halfway points
next to it, and a ratio of this interval is rounded to this number.

This module does NOT treat ratios that are too large.
-/

namespace Backtrack.Binary64

variable {x : Binary64} {negative : Bool} {field fraction : Nat}

theorem toNat_ofFields (hfield : field < 2048) (hfraction : fraction < 2 ^ 52) :
    (ofFields negative field fraction).bits.toNat =
      (if negative then 2 ^ 63 else 0) + field * 2 ^ 52 + fraction := by
  unfold ofFields
  simp only [Nat.pow_eq, Nat.toUInt64_eq]
  apply UInt64.toNat_ofNat_of_lt'
  rw [UInt64.size]
  split <;> omega

theorem field_ofFields (hfield : field < 2048) (hfraction : fraction < 2 ^ 52) :
    (ofFields negative field fraction).field = field := by
  unfold Binary64.field
  rw [toNat_ofFields hfield hfraction]
  simp only [Nat.pow_eq]
  split <;> omega

theorem fraction_lt (x : Binary64) : x.fraction < 2 ^ 52 := Nat.mod_lt _ (by decide)

theorem field_lt (x : Binary64) : x.field < 2048 := Nat.mod_lt _ (by decide)

/-- A number is determined by its sign, its exponent and its fraction. -/
theorem ofFields_eq (x : Binary64) : ofFields x.negative x.field x.fraction = x := by
  have hbits := @toNat_ofFields x.negative _ _ (field_lt x) (fraction_lt x)
  have hlt := x.bits.toNat_lt
  have hparts : (if x.negative then 2 ^ 63 else 0) + x.field * 2 ^ 52 + x.fraction =
      x.bits.toNat := by
    unfold Binary64.negative Binary64.field Binary64.fraction
    simp only [Nat.pow_eq, decide_eq_true_eq]
    split <;> omega
  rw [hparts] at hbits
  exact congrArg Binary64.mk (UInt64.toNat_inj.mp hbits)

theorem eq_zero (h : x.isZero = true) : x = zero x.negative := by
  simp only [isZero, Bool.and_eq_true, decide_eq_true_eq] at h
  have hparts := ofFields_eq x
  rw [h.1, h.2] at hparts
  exact hparts.symm

/-- A numerator and a denominator of a rational number. -/
def Stands (num den : Nat) (r : ℚ) : Prop := 0 < den ∧ (num : ℚ) = r * den

section Ratios

variable {num den a b base m : Nat} {r : ℚ} {e i : Int}

theorem Stands.le_iff (h : Stands num den r) : num ≤ m * den ↔ r ≤ m := by
  have hden : (0 : ℚ) < den := by exact_mod_cast h.1
  rw [← Nat.cast_le (α := ℚ), Nat.cast_mul, h.2, mul_le_mul_iff_left₀ hden]

theorem Stands.ge_iff (h : Stands num den r) : m * den ≤ num ↔ (m : ℚ) ≤ r := by
  have hden : (0 : ℚ) < den := by exact_mod_cast h.1
  rw [← Nat.cast_le (α := ℚ), Nat.cast_mul, h.2, mul_le_mul_iff_left₀ hden]

theorem Stands.lt_iff (h : Stands num den r) : num < m * den ↔ r < m := by
  rw [← not_le, h.ge_iff, not_le]

theorem Stands.gt_iff (h : Stands num den r) : m * den < num ↔ (m : ℚ) < r := by
  rw [← not_le, h.le_iff, not_le]

theorem Stands.mul (h : Stands num den r) : Stands (m * num) den (m * r) :=
  ⟨h.1, by rw [Nat.cast_mul, h.2, mul_assoc]⟩

/-- Scaling by a power of any base. -/
theorem Stands.scaled (h : Stands num den r) (hbase : 0 < base) :
    Stands (if 0 ≤ i then (num * base ^ i.toNat, den) else (num, den * base ^ (-i).toNat)).1
      (if 0 ≤ i then (num * base ^ i.toNat, den) else (num, den * base ^ (-i).toNat)).2
      (r * (base : ℚ) ^ i) := by
  have hne : (base : ℚ) ≠ 0 := by exact_mod_cast hbase.ne'
  split
  · rename_i hi
    have hpow : (base : ℚ) ^ i = (base : ℚ) ^ i.toNat := by
      rw [← zpow_natCast, Int.toNat_of_nonneg hi]
    refine ⟨h.1, ?_⟩
    rw [hpow, Nat.cast_mul, Nat.cast_pow, h.2]
    ring
  · rename_i hi
    have hpow : (base : ℚ) ^ i * (base : ℚ) ^ (-i).toNat = 1 := by
      rw [← zpow_natCast, Int.toNat_of_nonneg (by omega), ← zpow_add₀ hne, add_neg_cancel,
        zpow_zero]
    refine ⟨Nat.mul_pos h.1 (Nat.pow_pos hbase), ?_⟩
    rw [Nat.cast_mul, Nat.cast_pow, h.2]
    calc r * den = r * den * ((base : ℚ) ^ i * (base : ℚ) ^ (-i).toNat) := by rw [hpow, mul_one]
      _ = r * (base : ℚ) ^ i * (den * (base : ℚ) ^ (-i).toNat) := by ring

theorem Stands.scale2 (h : Stands num den r) (i : Int) :
    Stands (scale2 num den i).1 (scale2 num den i).2 (r * 2 ^ i) :=
  h.scaled (by decide)

/-- The nearest natural number, or of two equally near the even one, is what a ratio is rounded
to. -/
theorem roundDiv_eq (h : Stands num den r) (hlow : (m : ℚ) - 1 / 2 ≤ r) (hhigh : r ≤ m + 1 / 2)
    (htie : r = m - 1 / 2 ∨ r = m + 1 / 2 → m % 2 = 0) : roundDiv num den = m := by
  have hden : (0 : ℚ) < den := by exact_mod_cast h.1
  have htwice : Stands (2 * num) den (2 * r) := by simpa using h.mul (m := 2)
  have hle : 2 * num ≤ (2 * m + 1) * den := by
    rw [htwice.le_iff]
    push_cast
    linarith
  have hge : 2 * m * den ≤ 2 * num + den := by
    have hcast : (2 * m * den : ℚ) ≤ 2 * num + den := by
      rw [h.2]
      nlinarith
    exact_mod_cast hcast
  have hhalf : 2 * num = (2 * m + 1) * den → m % 2 = 0 := by
    intro heq
    have hcast : (2 * num : ℚ) = (2 * m + 1) * den := by exact_mod_cast heq
    rw [h.2, ← mul_assoc] at hcast
    exact htie (.inr (by linarith [mul_right_cancel₀ hden.ne' hcast]))
  have hhalf' : 2 * m * den = 2 * num + den → m % 2 = 0 := by
    intro heq
    have hcast : (2 * m * den : ℚ) = 2 * num + den := by exact_mod_cast heq
    have hcast : (2 * m : ℚ) * den = (2 * r + 1) * den := by rw [hcast, h.2]; ring
    exact htie (.inl (by linarith [mul_right_cancel₀ hden.ne' hcast]))
  have hsplit := Nat.div_add_mod num den
  have hrest := Nat.mod_lt num h.1
  unfold roundDiv
  simp only [Bool.or_eq_true, Bool.and_eq_true, decide_eq_true_eq]
  generalize num / den = quotient at hsplit ⊢
  generalize num % den = rest at hsplit hrest ⊢
  have habove : m ≤ quotient + 1 := by
    have hlt : 2 * m * den < (2 * quotient + 3) * den := by nlinarith
    have := Nat.lt_of_mul_lt_mul_right hlt
    omega
  have hbelow : quotient ≤ m := by
    have hle : 2 * quotient * den ≤ (2 * m + 1) * den := by nlinarith
    have := Nat.le_of_mul_le_mul_right hle h.1
    omega
  obtain rfl | rfl : m = quotient ∨ m = quotient + 1 := by omega
  · have hrest : 2 * rest ≤ den := by nlinarith
    have heven : 2 * rest = den → m % 2 = 0 := fun heq => hhalf (by rw [← hsplit]; linarith)
    rw [if_pos]
    omega
  · have hrest : den ≤ 2 * rest := by nlinarith
    have hodd : 2 * rest = den → (quotient + 1) % 2 = 0 :=
      fun heq => hhalf' (by rw [← hsplit]; linarith)
    rw [if_neg]
    omega

theorem roundDiv_le (h : Stands num den r) (hle : r ≤ m) : roundDiv num den ≤ m := by
  have hsplit := Nat.div_add_mod num den
  have hquotient : num / den ≤ m := Nat.div_le_of_le_mul (Nat.mul_comm m den ▸ h.le_iff.mpr hle)
  unfold roundDiv
  dsimp only
  split
  · exact hquotient
  · rename_i hup
    have hne : num / den ≠ m := by
      intro heq
      have hrest : num % den = 0 := by
        have hnum := h.le_iff.mpr hle
        rw [heq, Nat.mul_comm] at hsplit
        omega
      have hden := h.1
      simp [hrest, hden] at hup
    omega

/-- The exponent of the last place of a positive rational number. -/
structure LastPlace (r : ℚ) (e : Int) : Prop where
  least : -1074 ≤ e
  lt : r < 2 ^ 53 * 2 ^ e
  ge : e = -1074 ∨ 2 ^ 52 * 2 ^ e ≤ r

theorem LastPlace.unique {e' : Int} (h : LastPlace r e) (h' : LastPlace r e') : e = e' := by
  -- Of two exponents the greater one is not the least, so its power is a bound from below.
  have hle : ∀ {e e' : Int}, LastPlace r e → LastPlace r e' → e' ≤ e := by
    intro e e' h h'
    by_contra hlt
    rcases h'.ge with heq | hge
    · exact absurd h.least (by omega)
    · have hpow : (2 : ℚ) ^ (e + 1) ≤ 2 ^ e' := zpow_le_zpow_right₀ (by norm_num) (by omega)
      rw [zpow_add_one₀ (by norm_num)] at hpow
      linarith [h.lt]
  exact le_antisymm (hle h' h) (hle h h')

theorem log2_bounds {n : Nat} (hn : n ≠ 0) :
    (2 : ℚ) ^ (Nat.log2 n : Int) ≤ n ∧ (n : ℚ) < 2 ^ (Nat.log2 n + 1 : Int) := by
  constructor
  · exact_mod_cast Nat.log2_self_le hn
  · exact_mod_cast Nat.lt_log2_self

/-- Where the guess is right or one too great, so is what comes of it. -/
theorem lastPlace_max {guess : Int} (hlt : r < 2 ^ 53 * 2 ^ guess) (hge : 2 ^ 52 * 2 ^ guess ≤ r) :
    LastPlace r (max guess (-1074)) := by
  rcases le_total (-1074) guess with hle | hle
  · rw [max_eq_left hle]
    exact ⟨hle, hlt, .inr hge⟩
  · rw [max_eq_right hle]
    have hpow : (2 : ℚ) ^ guess ≤ 2 ^ (-1074 : Int) := zpow_le_zpow_right₀ (by norm_num) hle
    refine ⟨le_rfl, ?_, .inl rfl⟩
    calc r < 2 ^ 53 * 2 ^ guess := hlt
      _ ≤ 2 ^ 53 * 2 ^ (-1074 : Int) := mul_le_mul_of_nonneg_left hpow (by norm_num)

/-- The difference of the binary magnitudes tells the magnitude of a ratio up to a factor of
four. -/
theorem magnitude_bounds (h : Stands num den r) (hnum : num ≠ 0) {guess : Int}
    (hguess : (Nat.log2 num : Int) - Nat.log2 den - 52 = guess) :
    2 ^ 51 * 2 ^ guess ≤ r ∧ r < 2 ^ 53 * 2 ^ guess := by
  obtain ⟨hnumGe, hnumLt⟩ := log2_bounds hnum
  obtain ⟨hdenGe, hdenLt⟩ := log2_bounds h.1.ne'
  have hden : (0 : ℚ) < den := by exact_mod_cast h.1
  have htwo : (2 : ℚ) ≠ 0 := by norm_num
  have hpow : (2 : ℚ) ^ (Nat.log2 num : Int) = 2 ^ (Nat.log2 den : Int) * (2 ^ 52 * 2 ^ guess) := by
    rw [← zpow_natCast 2 52, ← zpow_add₀ htwo, ← zpow_add₀ htwo]
    congr 1
    omega
  rw [zpow_add_one₀ htwo, h.2, hpow] at hnumLt
  rw [h.2, hpow] at hnumGe
  rw [zpow_add_one₀ htwo] at hdenLt
  have hguessPos : (0 : ℚ) < 2 ^ guess := zpow_pos (by norm_num) _
  have hpowPos : (0 : ℚ) < 2 ^ (Nat.log2 den : Int) := zpow_pos (by norm_num) _
  generalize (2 : ℚ) ^ (Nat.log2 den : Int) = power at *
  generalize (2 : ℚ) ^ guess = unit at *
  have hr : 0 < r := by
    have hpos : 0 < r * den := lt_of_lt_of_le (by positivity) hnumGe
    exact pos_of_mul_pos_left hpos hden.le
  constructor
  · have hle : power * (2 ^ 52 * unit) ≤ power * (2 * r) := by nlinarith
    linarith [le_of_mul_le_mul_left hle hpowPos]
  · have hlt : r * den < 2 ^ 53 * unit * den := by
      calc r * den < power * (2 ^ 52 * unit) * 2 := hnumLt
        _ = 2 ^ 53 * unit * power := by ring
        _ ≤ 2 ^ 53 * unit * den := mul_le_mul_of_nonneg_left hdenGe (by positivity)
    exact lt_of_mul_lt_mul_right hlt hden.le

theorem lastPlace_ratioExponent (h : Stands num den r) (hnum : num ≠ 0) :
    LastPlace r (ratioExponent num den) := by
  unfold ratioExponent
  generalize hguess : (Nat.log2 num : Int) - Nat.log2 den - 52 = guess
  obtain ⟨hlower, hupper⟩ := magnitude_bounds h hnum hguess
  have hscale : (2 : ℚ) ^ guess * 2 ^ (-guess) = 1 := by
    rw [← zpow_add₀ (by norm_num), add_neg_cancel, zpow_zero]
  have hpos : (0 : ℚ) < 2 ^ guess := zpow_pos (by norm_num) _
  have hcond : (scale2 num den (-guess)).1 < (scale2 num den (-guess)).2 * Nat.pow 2 52 ↔
      r < 2 ^ 52 * 2 ^ guess := by
    rw [Nat.mul_comm, (h.scale2 (-guess)).lt_iff, ← mul_lt_mul_iff_left₀ hpos, mul_assoc,
      mul_comm (2 ^ (-guess)), hscale, mul_one]
    norm_num
  dsimp only
  split
  · rename_i hlt
    rw [hcond] at hlt
    have hhalf : (2 : ℚ) ^ guess = 2 ^ (guess - 1) * 2 := by
      rw [← zpow_add_one₀ (by norm_num), sub_add_cancel]
    rw [hhalf] at hlt hlower
    apply lastPlace_max
    · linarith
    · linarith
  · rename_i hge
    rw [hcond, not_lt] at hge
    exact lastPlace_max hupper hge

end Ratios

/-- Whether a number is neither infinite nor none. -/
def Finite (x : Binary64) : Prop := x.field < 2047

theorem Finite.isNaN_eq (h : x.Finite) : x.isNaN = false := by
  unfold isNaN
  rw [decide_eq_false (Nat.ne_of_lt h), Bool.false_and]

theorem Finite.isInfinite_eq (h : x.Finite) : x.isInfinite = false := by
  unfold isInfinite
  rw [decide_eq_false (Nat.ne_of_lt h), Bool.false_and]

/-- In units of the last place, the halfway point below a number. Below a power of two the numbers
are closer. -/
def lower (x : Binary64) : ℚ :=
  x.mantissa - if x.fraction = 0 ∧ 1 < x.field then 1 / 4 else 1 / 2

def upper (x : Binary64) : ℚ := x.mantissa + 1 / 2

/-- The rational numbers between the halfway points around the magnitude of a number. The halfway
points are among them if the mantissa is even. -/
structure Covers (x : Binary64) (r : ℚ) : Prop where
  low : x.lower * 2 ^ x.exponent ≤ r
  high : r ≤ x.upper * 2 ^ x.exponent
  tie : r = x.lower * 2 ^ x.exponent ∨ r = x.upper * 2 ^ x.exponent → x.mantissa % 2 = 0

theorem covers_of_lt {r : ℚ} (hlow : x.lower * 2 ^ x.exponent < r)
    (hhigh : r < x.upper * 2 ^ x.exponent) : x.Covers r := by
  refine ⟨hlow.le, hhigh.le, ?_⟩
  rintro (heq | heq)
  · exact absurd heq hlow.ne'
  · exact absurd heq hhigh.ne

theorem mantissa_lt (x : Binary64) : x.mantissa < 2 ^ 53 := by
  have hfraction := fraction_lt x
  unfold mantissa
  simp only [Nat.pow_eq]
  split <;> omega

theorem mantissa_pos (h : x.isZero = false) : 0 < x.mantissa := by
  unfold isZero at h
  unfold mantissa
  simp only [Bool.and_eq_false_iff, decide_eq_false_iff_not] at h
  simp only [Nat.pow_eq]
  split <;> omega

theorem exponent_ge (x : Binary64) : -1074 ≤ x.exponent := by
  unfold exponent
  omega

theorem exponent_le (h : x.Finite) : x.exponent ≤ 971 := by
  unfold exponent
  unfold Finite at h
  omega

/-- A number is either one of those next to zero or has a mantissa of full length. -/
theorem subnormal_or_normal (x : Binary64) :
    (x.field = 0 ∧ x.exponent = -1074 ∧ x.mantissa = x.fraction) ∨
      (1 ≤ x.field ∧ (x.field : Int) = x.exponent + 1075 ∧ x.mantissa = 2 ^ 52 + x.fraction) := by
  unfold exponent mantissa
  simp only [Nat.pow_eq]
  split <;> omega

theorem lower_ge (x : Binary64) : (x.mantissa : ℚ) - 1 / 2 ≤ x.lower := by
  unfold lower
  split <;> linarith

theorem lower_le (x : Binary64) : x.lower ≤ x.mantissa := by
  unfold lower
  split <;> linarith

theorem lower_pos (h : x.isZero = false) : 0 < x.lower := by
  have hpos : (1 : ℚ) ≤ x.mantissa := by exact_mod_cast mantissa_pos h
  linarith [lower_ge x]

theorem upper_lt (x : Binary64) : x.upper < 2 ^ 53 := by
  have hlt : (x.mantissa : ℚ) + 1 ≤ 2 ^ 53 := by exact_mod_cast mantissa_lt x
  unfold upper
  linarith

theorem Covers.pos {r : ℚ} (hr : x.Covers r) (h : x.isZero = false) : 0 < r :=
  lt_of_lt_of_le (mul_pos (lower_pos h) (zpow_pos (by norm_num) _)) hr.low

theorem Covers.ge {r : ℚ} (hr : x.Covers r) (h : x.isZero = false) :
    1 / 2 * 2 ^ (-1074 : Int) ≤ r := by
  have hmantissa : (1 : ℚ) ≤ x.mantissa := by exact_mod_cast mantissa_pos h
  have hlower : 1 / 2 ≤ x.lower := by linarith [lower_ge x]
  have hplace : (2 : ℚ) ^ (-1074 : Int) ≤ 2 ^ x.exponent :=
    zpow_le_zpow_right₀ (by norm_num) (exponent_ge x)
  have hpos : (0 : ℚ) < 2 ^ (-1074 : Int) := zpow_pos (by norm_num) _
  calc 1 / 2 * 2 ^ (-1074 : Int) ≤ x.lower * 2 ^ x.exponent := by gcongr
    _ ≤ r := hr.low

theorem Covers.lt {r : ℚ} {k : Int} (hr : x.Covers r) (h : x.exponent ≤ k) :
    r < 2 ^ 53 * 2 ^ k := by
  have hplace : (2 : ℚ) ^ x.exponent ≤ 2 ^ k := zpow_le_zpow_right₀ (by norm_num) h
  have hpos : (0 : ℚ) < 2 ^ x.exponent := zpow_pos (by norm_num) _
  calc r ≤ x.upper * 2 ^ x.exponent := hr.high
    _ < 2 ^ 53 * 2 ^ x.exponent := mul_lt_mul_of_pos_right (upper_lt x) hpos
    _ ≤ 2 ^ 53 * 2 ^ k := by gcongr

/-- What a mantissa and an exponent are put together to. -/
theorem ofRatio?_eq {num den m : Nat} {e : Int} (hnum : num ≠ 0)
    (hexponent : ratioExponent num den = e)
    (hm : roundDiv (scale2 num den (-e)).1 (scale2 num den (-e)).2 = m) :
    ofRatio? negative num den =
      let (m, e) := if m = 2 ^ 53 then (2 ^ 52, e + 1) else (m, e)
      if 971 < e then none
      else if m < 2 ^ 52 then some (ofFields negative 0 m)
      else some (ofFields negative (e + 1075).toNat (m - 2 ^ 52)) := by
  have hpow52 : Nat.pow 2 52 = 2 ^ 52 := Nat.pow_eq
  have hpow53 : Nat.pow 2 53 = 2 ^ 53 := Nat.pow_eq
  unfold ofRatio?
  rw [if_neg hnum, hexponent, hpow52, hpow53]
  dsimp only
  rw [hm]

theorem Covers.units {r : ℚ} (h : x.Covers r) :
    x.lower ≤ r * 2 ^ (-x.exponent) ∧ r * 2 ^ (-x.exponent) ≤ x.upper ∧
      (r * 2 ^ (-x.exponent) = x.lower ∨ r * 2 ^ (-x.exponent) = x.upper →
        x.mantissa % 2 = 0) := by
  have hpos : (0 : ℚ) < 2 ^ x.exponent := zpow_pos (by norm_num) _
  rw [zpow_neg, ← div_eq_mul_inv]
  refine ⟨(le_div_iff₀ hpos).mpr h.low, (div_le_iff₀ hpos).mpr h.high, ?_⟩
  rw [div_eq_iff hpos.ne', div_eq_iff hpos.ne']
  exact h.tie

/-- In the interval around a number the last place is the same or, below a power of two, the next
one. -/
theorem Covers.lastPlace {r : ℚ} (h : x.Covers r) :
    LastPlace r x.exponent ∨
      (x.fraction = 0 ∧ 1 < x.field ∧ LastPlace r (x.exponent - 1)) := by
  obtain ⟨hlow, hhigh, _⟩ := h.units
  have hpos : (0 : ℚ) < 2 ^ x.exponent := zpow_pos (by norm_num) _
  have hr : r * 2 ^ (-x.exponent) * 2 ^ x.exponent = r := by
    rw [mul_assoc, ← zpow_add₀ (by norm_num), neg_add_cancel, zpow_zero, mul_one]
  generalize r * 2 ^ (-x.exponent) = s at *
  subst hr
  have hupper := upper_lt x
  have hlt : s * 2 ^ x.exponent < 2 ^ 53 * 2 ^ x.exponent :=
    mul_lt_mul_of_pos_right (by linarith) hpos
  by_cases hge : x.exponent = -1074 ∨ 2 ^ 52 * 2 ^ x.exponent ≤ s * 2 ^ x.exponent
  · exact .inl ⟨exponent_ge x, hlt, hge⟩
  · rw [not_or, not_le] at hge
    have hs : s < 2 ^ 52 := lt_of_mul_lt_mul_right hge.2 hpos.le
    rcases subnormal_or_normal x with ⟨_, hexponent, _⟩ | ⟨_, hfield, hmantissa⟩
    · exact absurd hexponent hge.1
    have hfraction : x.fraction = 0 := by
      have hlt : (x.mantissa : ℚ) < 2 ^ 52 + 1 := by linarith [lower_ge x]
      have hlt : x.mantissa < 2 ^ 52 + 1 := by exact_mod_cast hlt
      omega
    have hge := exponent_ge x
    have hcloser : 1 < x.field := by omega
    have hlower : x.lower = 2 ^ 52 - 1 / 4 := by
      rw [lower, if_pos ⟨hfraction, hcloser⟩, hmantissa, hfraction]
      norm_num
    have hhalf : (2 : ℚ) ^ x.exponent = 2 ^ (x.exponent - 1) * 2 := by
      rw [← zpow_add_one₀ (by norm_num), sub_add_cancel]
    rw [hhalf]
    have hnextPos : (0 : ℚ) < 2 ^ (x.exponent - 1) := zpow_pos (by norm_num) _
    refine .inr ⟨hfraction, hcloser, by omega, ?_, .inr ?_⟩
    · rw [← mul_assoc, mul_right_comm]
      exact mul_lt_mul_of_pos_right (by linarith) hnextPos
    · rw [← mul_assoc, mul_right_comm]
      exact mul_le_mul_of_nonneg_right (by linarith) hnextPos.le

theorem ofRatio?_of_covers {num den : Nat} {r : ℚ} (hfinite : x.Finite) (hzero : x.isZero = false)
    (h : Stands num den r) (hr : x.Covers r) :
    ofRatio? negative num den = some (ofFields negative x.field x.fraction) := by
  have hnum : num ≠ 0 := by
    rintro rfl
    have hpos := hr.pos hzero
    have hden : (0 : ℚ) < den := by exact_mod_cast h.1
    have hzero : 0 = r * den := by simpa using h.2
    exact absurd hzero (mul_pos hpos hden).ne
  obtain ⟨hlow, hhigh, htie⟩ := hr.units
  have hlast := lastPlace_ratioExponent h hnum
  have hle := exponent_le hfinite
  rcases hr.lastPlace with hplace | ⟨hfraction, hcloser, hplace⟩
  · have hm := roundDiv_eq (m := x.mantissa) (h.scale2 (-x.exponent))
      ((lower_ge x).trans hlow) hhigh (by
        rintro (heq | heq)
        · exact htie (.inl (le_antisymm (heq.trans_le (lower_ge x)) hlow))
        · exact htie (.inr heq))
    have hlt := mantissa_lt x
    rw [ofRatio?_eq hnum (hlast.unique hplace) hm, if_neg (by omega)]
    dsimp only
    rw [if_neg (by omega)]
    rcases subnormal_or_normal x with ⟨hfield, _, hmantissa⟩ | ⟨_, hfield, hmantissa⟩
    · rw [if_pos (by rw [hmantissa]; exact fraction_lt x), hfield, hmantissa]
    · rw [if_neg (by omega), ← hfield, hmantissa, Nat.add_sub_cancel_left, Int.toNat_natCast]
  · have hmantissa : x.mantissa = 2 ^ 52 := by
      rcases subnormal_or_normal x with ⟨hfield, _, _⟩ | ⟨_, _, hmantissa⟩
      · omega
      · omega
    have hlower : x.lower = 2 ^ 52 - 1 / 4 := by
      rw [lower, if_pos ⟨hfraction, hcloser⟩, hmantissa]
      norm_num
    -- Rounding carries into a mantissa that is too long by one digit.
    have hscale : r * 2 ^ (-(x.exponent - 1)) = r * 2 ^ (-x.exponent) * 2 := by
      rw [mul_assoc, ← zpow_add_one₀ (by norm_num)]
      congr 2
      ring
    have hbelow : r * 2 ^ (-x.exponent) ≤ 2 ^ 52 := by
      have hlt := hplace.lt
      have hpos : (0 : ℚ) < 2 ^ (x.exponent - 1) := zpow_pos (by norm_num) _
      rw [← div_lt_iff₀ hpos, div_eq_mul_inv, ← zpow_neg, hscale] at hlt
      linarith
    have hm := roundDiv_eq (m := 2 ^ 53) (h.scale2 (-(x.exponent - 1)))
      (by rw [hscale]; push_cast; linarith) (by rw [hscale]; push_cast; linarith)
      (fun _ => by norm_num)
    have hfield : (x.field : Int) = x.exponent + 1075 := by
      rcases subnormal_or_normal x with ⟨hfield, _, _⟩ | ⟨_, hfield, _⟩
      · omega
      · exact hfield
    rw [ofRatio?_eq hnum (hlast.unique hplace) hm, if_pos rfl]
    dsimp only
    rw [if_neg (by omega), if_neg (by omega), sub_add_cancel, ← hfield, Int.toNat_natCast,
      hfraction, Nat.sub_self]

theorem finite_ofFields (hfield : field < 2047) (hfraction : fraction < 2 ^ 52) :
    (ofFields negative field fraction).Finite := by
  unfold Finite
  rw [field_ofFields (by omega) hfraction]
  exact hfield

theorem finite_zero : (zero negative).Finite := finite_ofFields (by decide) (by decide)

theorem finite_of_packed {m : Nat} {e : Int} (he : -1074 ≤ e) (hm : m < 2 ^ 53)
    (hx : (if 971 < e then none
      else if m < 2 ^ 52 then some (ofFields negative 0 m)
      else some (ofFields negative (e + 1075).toNat (m - 2 ^ 52))) = some x) : x.Finite := by
  split at hx
  · cases hx
  split at hx
  · rename_i hsmall
    exact Option.some.inj hx ▸ finite_ofFields (by decide) hsmall
  · exact Option.some.inj hx ▸ finite_ofFields (by omega) (by omega)

/-- What a ratio is rounded to is a finite number. -/
theorem finite_of_ofRatio? {num den : Nat} (hden : 0 < den)
    (hx : ofRatio? negative num den = some x) : x.Finite := by
  have h : Stands num den (num / den) :=
    ⟨hden, (div_mul_cancel₀ _ (by exact_mod_cast hden.ne')).symm⟩
  by_cases hnum : num = 0
  · unfold ofRatio? at hx
    rw [if_pos hnum, Option.some.injEq] at hx
    exact hx ▸ finite_zero
  have hlast := lastPlace_ratioExponent h hnum
  rw [ofRatio?_eq hnum rfl rfl] at hx
  generalize ratioExponent num den = e at hlast hx
  have hm : roundDiv (scale2 num den (-e)).1 (scale2 num den (-e)).2 ≤ 2 ^ 53 := by
    apply roundDiv_le (h.scale2 (-e))
    have hpos : (0 : ℚ) < 2 ^ e := zpow_pos (by norm_num) _
    rw [zpow_neg, ← div_eq_mul_inv, div_le_iff₀ hpos]
    exact_mod_cast hlast.lt.le
  have hleast := hlast.least
  generalize roundDiv _ _ = m at hm hx
  by_cases hcarry : m = 2 ^ 53
  · rw [if_pos hcarry] at hx
    exact finite_of_packed (m := 2 ^ 52) (e := e + 1) (by omega) (by norm_num) hx
  · rw [if_neg hcarry] at hx
    exact finite_of_packed hleast (by omega) hx

end Backtrack.Binary64
