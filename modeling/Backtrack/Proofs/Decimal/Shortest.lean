import Backtrack.Proofs.Decimal.Digits
import Backtrack.Proofs.Decimal.Rounding

/-!
# The shortest digits lie around their number

The three points that the search for digits works with stand for a number and the two halfway points
around it. Whatever the search hits lies between these, and a grid that is finer than their distance
is hit for sure, so there always are digits.

This module does NOT show that fewer digits would not do.
-/

namespace Backtrack.Decimal

open Binary64 Numerals Bytes

variable {x : Binary64} {i : Interval} {scale top : Int} {num den hit n : Nat} {r : ℚ}

theorem stands_scale10 (h : Stands num den r) (k : Int) :
    Stands (scale10 num den k).1 (scale10 num den k).2 (r * 10 ^ k) :=
  h.scaled (by decide)

theorem scale10_den (a b den : Nat) (k : Int) : (scale10 a den k).2 = (scale10 b den k).2 := by
  unfold scale10
  split <;> rfl

theorem scale2_den (a b den : Nat) (k : Int) : (scale2 a den k).2 = (scale2 b den k).2 := by
  unfold scale2
  split <;> rfl

structure Interval.Around (i : Interval) (x : Binary64) : Prop where
  low : Stands i.low i.den (x.lower * 2 ^ x.exponent)
  mid : Stands i.mid i.den (x.mantissa * 2 ^ x.exponent)
  high : Stands i.high i.den (x.upper * 2 ^ x.exponent)
  closed : i.closed = true ↔ x.mantissa % 2 = 0

/-- A quarter of a multiple of the last place. -/
theorem stands_quarter (x : Binary64) (n : Nat) :
    Stands (scale2 n 1 x.exponent).1 (4 * (scale2 1 1 x.exponent).2) (n / 4 * 2 ^ x.exponent) := by
  have h : Stands n 1 n := ⟨by decide, by simp⟩
  obtain ⟨hpos, heq⟩ := h.scale2 x.exponent
  rw [scale2_den n 1] at hpos heq
  refine ⟨Nat.mul_pos (by decide) hpos, ?_⟩
  rw [heq]
  push_cast
  ring

theorem quarter_low (h : x.isZero = false) :
    ((4 * x.mantissa - if x.fraction = 0 && 1 < x.field then 1 else 2 : Nat) : ℚ) / 4 =
      x.lower := by
  have hpos := mantissa_pos h
  unfold lower
  simp only [Bool.and_eq_true, decide_eq_true_eq]
  split
  · rw [Nat.cast_sub (by omega)]
    push_cast
    ring
  · rw [Nat.cast_sub (by omega)]
    push_cast
    ring

theorem around_of (h : x.isZero = false) : (Interval.of x).Around x := by
  have hmid : ((4 * x.mantissa : Nat) : ℚ) / 4 = x.mantissa := by
    push_cast
    ring
  have hhigh : ((4 * x.mantissa + 2 : Nat) : ℚ) / 4 = x.upper := by
    unfold upper
    push_cast
    ring
  constructor
  · exact quarter_low h ▸ stands_quarter x _
  · exact hmid ▸ stands_quarter x _
  · exact hhigh ▸ stands_quarter x _
  · exact decide_eq_true_iff

/-- Whether a point of the grid is found to be in the interval tells whether it is. -/
theorem holds_iff (hi : i.Around x) :
    i.holds (scale10 i.low i.den (-scale)).1 (scale10 i.high i.den (-scale)).1
      (scale10 i.low i.den (-scale)).2 n = true ↔ x.Covers (n * 10 ^ scale) := by
  have hunit : (0 : ℚ) < 10 ^ scale := zpow_pos (by norm_num) _
  have hlow := stands_scale10 hi.low (-scale)
  have hhigh := stands_scale10 hi.high (-scale)
  rw [scale10_den i.high i.low] at hhigh
  rw [zpow_neg, ← div_eq_mul_inv] at hlow hhigh
  unfold Interval.holds
  by_cases heven : x.mantissa % 2 = 0
  · rw [if_pos (hi.closed.mpr heven), Bool.and_eq_true, decide_eq_true_iff, decide_eq_true_iff,
      hlow.le_iff, hhigh.ge_iff, div_le_iff₀ hunit, le_div_iff₀ hunit]
    exact ⟨fun h => ⟨h.1, h.2, fun _ => heven⟩, fun h => ⟨h.low, h.high⟩⟩
  · rw [if_neg (mt hi.closed.mp heven), Bool.and_eq_true, decide_eq_true_iff, decide_eq_true_iff,
      hlow.lt_iff, hhigh.gt_iff, div_lt_iff₀ hunit, lt_div_iff₀ hunit]
    constructor
    · rintro ⟨hlow, hhigh⟩
      exact covers_of_lt hlow hhigh
    · intro h
      exact ⟨lt_of_le_of_ne h.low fun heq => heven (h.tie (.inl heq.symm)),
        lt_of_le_of_ne h.high fun heq => heven (h.tie (.inr heq))⟩

theorem covers_of_onGrid? (hi : i.Around x) (h : i.onGrid? scale = some hit) :
    x.Covers (hit * 10 ^ scale) := by
  unfold Interval.onGrid? at h
  dsimp only at h
  split at h
  · rename_i hbelow habove
    cases h
    split
    · exact (holds_iff hi).mp hbelow
    · exact (holds_iff hi).mp habove
  · rename_i hbelow _
    cases h
    exact (holds_iff hi).mp hbelow
  · rename_i _ habove
    cases h
    exact (holds_iff hi).mp habove
  · cases h

/-- A grid that is fine enough is hit. -/
theorem exists_onGrid? (hi : i.Around x) (hfine : (10 : ℚ) ^ scale < 1 / 2 * 2 ^ x.exponent) :
    ∃ hit, i.onGrid? scale = some hit := by
  have hunit : (0 : ℚ) < 10 ^ scale := zpow_pos (by norm_num) _
  have hplace : (0 : ℚ) < 2 ^ x.exponent := zpow_pos (by norm_num) _
  have hmid := stands_scale10 hi.mid (-scale)
  rw [scale10_den i.mid i.low, zpow_neg, ← div_eq_mul_inv] at hmid
  generalize hbelow : (scale10 i.mid i.den (-scale)).1 / (scale10 i.low i.den (-scale)).2 = below
  have hle : x.mantissa * 2 ^ x.exponent < ((below + 1 : Nat) : ℚ) * 10 ^ scale := by
    rw [← div_lt_iff₀ hunit, ← hmid.lt_iff, ← Nat.div_lt_iff_lt_mul hmid.1, hbelow]
    exact Nat.lt_succ_self below
  have hge : (below : ℚ) * 10 ^ scale ≤ x.mantissa * 2 ^ x.exponent := by
    rw [← le_div_iff₀ hunit, ← hmid.ge_iff, ← Nat.le_div_iff_mul_le hmid.1, hbelow]
  have habove : x.Covers ((below + 1 : Nat) * 10 ^ scale) := by
    push_cast at hle ⊢
    apply covers_of_lt
    · exact lt_of_le_of_lt (mul_le_mul_of_nonneg_right (lower_le x) hplace.le) hle
    · calc ((below : ℚ) + 1) * 10 ^ scale = below * 10 ^ scale + 10 ^ scale := by ring
        _ < x.mantissa * 2 ^ x.exponent + 1 / 2 * 2 ^ x.exponent := add_lt_add_of_le_of_lt hge hfine
        _ = x.upper * 2 ^ x.exponent := (add_mul _ _ _).symm
  have hholds := (holds_iff hi).mpr habove
  unfold Interval.onGrid?
  dsimp only
  rw [hbelow, hholds]
  split
  · exact ⟨_, rfl⟩
  · exact ⟨_, rfl⟩
  · exact ⟨_, rfl⟩
  · rename_i heq
    cases heq

theorem pow_length_quotient_le (h : Stands num den r) (hle : den ≤ num) :
    (10 : ℚ) ^ (((ofNat (num / den)).length : Int) - 1) ≤ r := by
  have hpos : 0 < num / den := Nat.div_pos hle h.1
  have hlength : 0 < (ofNat (num / den)).length :=
    List.length_pos_iff.mpr (digits_ofNat (num / den)).1
  have hplace : ((ofNat (num / den)).length : Int) - 1 =
      ((ofNat (num / den)).length - 1 : Nat) := by omega
  calc (10 : ℚ) ^ (((ofNat (num / den)).length : Int) - 1)
      = ((10 ^ ((ofNat (num / den)).length - 1) : Nat) : ℚ) := by
        rw [hplace, zpow_natCast, Nat.cast_pow, Nat.cast_ofNat]
    _ ≤ (num / den : Nat) := by exact_mod_cast pow_length_le hpos.ne'
    _ ≤ r := h.ge_iff.mp (Nat.div_mul_le_self num den)

/-- The place of the first digit is not taken too high. -/
theorem pow_magnitude_le {fuel : Nat} (h : Stands num den r) (hfuel : den ≤ num * 10 ^ fuel) :
    (10 : ℚ) ^ (magnitude num den (fuel + 1) - 1) ≤ r := by
  induction fuel generalizing num r with
  | zero =>
    rw [pow_zero, mul_one] at hfuel
    rw [magnitude, if_pos hfuel]
    exact pow_length_quotient_le h hfuel
  | succ fuel ih =>
    rw [magnitude]
    split
    · rename_i hle
      exact pow_length_quotient_le h hle
    · have hnext := ih (h.mul (m := 10)) (by rw [pow_succ] at hfuel; linarith)
      push_cast at hnext
      have hstep : (10 : ℚ) ^ (magnitude (10 * num) den (fuel + 1) - 1) =
          10 ^ (magnitude (10 * num) den (fuel + 1) - 1 - 1) * 10 := by
        rw [← zpow_add_one₀ (by norm_num), sub_add_cancel]
      rw [hstep] at hnext
      linarith

/-- The twentieth digit stands for less than half of the last binary place. -/
theorem pow_twenty_lt (htop : (10 : ℚ) ^ (top - 1) ≤ x.mantissa * 2 ^ x.exponent) :
    (10 : ℚ) ^ (top - (20 : Nat)) < 1 / 2 * 2 ^ x.exponent := by
  have hplace : (0 : ℚ) < 2 ^ x.exponent := zpow_pos (by norm_num) _
  have hmantissa : (x.mantissa : ℚ) < 2 ^ 53 := by exact_mod_cast mantissa_lt x
  have hsplit : (10 : ℚ) ^ (top - 1) = 10 ^ (top - (20 : Nat)) * 10 ^ 19 := by
    rw [← zpow_natCast 10 19, ← zpow_add₀ (by norm_num)]
    congr 1
    push_cast
    ring
  rw [hsplit] at htop
  have hlt := lt_of_le_of_lt htop (mul_lt_mul_of_pos_right hmantissa hplace)
  generalize (10 : ℚ) ^ (top - (20 : Nat)) = unit at *
  linarith

/-- Twenty digits are enough. -/
theorem exists_search (hi : i.Around x)
    (htop : (10 : ℚ) ^ (top - 1) ≤ x.mantissa * 2 ^ x.exponent) {fuel : Nat} (hn : n + fuel = 20) :
    ∃ hit scale, i.search top (fuel + 1) n = .ofScaled hit scale ∧ x.Covers (hit * 10 ^ scale) := by
  induction fuel generalizing n with
  | zero =>
    obtain rfl : n = 20 := hn
    obtain ⟨hit, heq⟩ := exists_onGrid? hi (pow_twenty_lt htop)
    rw [Interval.search, heq]
    exact ⟨hit, _, rfl, covers_of_onGrid? hi heq⟩
  | succ fuel ih =>
    rw [Interval.search]
    split
    · rename_i hit heq
      exact ⟨hit, _, rfl, covers_of_onGrid? hi heq⟩
    · exact ih (by omega)

theorem one_le_mul_pow (h : x.isZero = false) :
    (1 : ℚ) ≤ x.mantissa * 2 ^ x.exponent * 10 ^ 399 := by
  have hmantissa : (1 : ℚ) ≤ x.mantissa := by exact_mod_cast mantissa_pos h
  have hplace : (2 : ℚ) ^ (-1074 : Int) ≤ 2 ^ x.exponent :=
    zpow_le_zpow_right₀ (by norm_num) (exponent_ge x)
  have hpow : (2 : ℚ) ^ 1074 ≤ 10 ^ 399 := by
    exact_mod_cast (by decide +kernel : (2 : Nat) ^ 1074 ≤ 10 ^ 399)
  have hpos : (0 : ℚ) < 2 ^ (-1074 : Int) := zpow_pos (by norm_num) _
  calc (1 : ℚ) = 1 * 2 ^ (-1074 : Int) * 2 ^ 1074 := by
        rw [one_mul, ← zpow_natCast, ← zpow_add₀ (by norm_num)]
        norm_num
    _ ≤ x.mantissa * 2 ^ x.exponent * 10 ^ 399 := by gcongr

/-- The shortest digits denote a number in the interval. -/
theorem exists_shortest (h : x.isZero = false) : ∃ r, (shortest x).Denotes r ∧ x.Covers r := by
  have hi := around_of h
  have hfuel : (Interval.of x).den ≤ (Interval.of x).mid * 10 ^ 399 := by
    have hone : (1 : ℚ) ≤ x.mantissa * 2 ^ x.exponent * 10 ^ 399 := one_le_mul_pow h
    have hden : (0 : ℚ) ≤ (Interval.of x).den := Nat.cast_nonneg _
    have hcast : ((Interval.of x).den : ℚ) ≤ (Interval.of x).mid * 10 ^ 399 := by
      rw [hi.mid.2, mul_right_comm]
      exact le_mul_of_one_le_left hden hone
    exact_mod_cast hcast
  have hn : 1 + 19 = 20 := rfl
  obtain ⟨hit, scale, hsearch, hr⟩ := exists_search hi (pow_magnitude_le hi.mid hfuel) hn
  have hhit : hit ≠ 0 := by
    rintro rfl
    exact absurd (hr.pos h) (by simp)
  refine ⟨_, ?_, hr⟩
  unfold shortest
  rw [if_neg (by simp [h])]
  dsimp only
  rw [hsearch]
  exact denotes_ofScaled hhit scale

end Backtrack.Decimal
