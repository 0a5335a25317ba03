import Mathlib.Algebra.Order.Field.Power
import Mathlib.Algebra.Order.Field.Rat
import Mathlib.Tactic.Linarith
import Mathlib.Tactic.NormNum
import Mathlib.Tactic.Positivity
import Mathlib.Tactic.Ring
import Backtrack.Decimal.Shortest
import Backtrack.Decimal.Format
import Backtrack.Proofs.Decimal.Numerals

/-!
# The values of digits

How the value of digits is made up of those of their parts, how large it is, and when digits are the
way in which their value is written. The digits of a scaled natural number, which lack its last
zeros, denote it together with the place of the point.

This module does NOT treat signs.
-/

namespace Backtrack.Numerals

open Text Bytes

variable {t u : Bytes} {b : UInt8}

theorem digitsValue_concat (t : Bytes) (b : UInt8) :
    digitsValue (t ++ [b]) = 10 * digitsValue t + (b.toNat - 48) := by
  unfold digitsValue
  rw [List.foldl_append, List.foldl_cons, List.foldl_nil]

theorem digitsValue_append (t u : Bytes) :
    digitsValue (t ++ u) = digitsValue t * 10 ^ u.length + digitsValue u := by
  induction u using List.reverseRecOn with
  | nil => simp [digitsValue]
  | append_singleton u b ih =>
    rw [← List.append_assoc, digitsValue_concat, ih, digitsValue_concat, List.length_append,
      List.length_singleton]
    ring

theorem digitsValue_zeros (n : Nat) : digitsValue (List.replicate n 48) = 0 := by
  induction n with
  | zero => rfl
  | succ n ih => rw [List.replicate_succ', digitsValue_concat, ih]; rfl

theorem digit_bounds (h : isDigit b = true) : 48 ≤ b.toNat ∧ b.toNat < 58 := by
  have hall : ∀ b : UInt8, isDigit b = true → 48 ≤ b.toNat ∧ b.toNat < 58 :=
    Bytes.forall_byte (by decide +kernel)
  exact hall b h

theorem digitsValue_lt (h : t.all isDigit = true) : digitsValue t < 10 ^ t.length := by
  induction t using List.reverseRecOn with
  | nil => decide
  | append_singleton t b ih =>
    rw [List.all_append, Bool.and_eq_true, List.all_cons, Bool.and_eq_true] at h
    have hdigit := digit_bounds h.2.1
    have hlt := ih h.1
    rw [digitsValue_concat, List.length_append, List.length_singleton, pow_succ]
    omega

/-- Digits without a zero in front are at least as large as their number tells. -/
theorem le_digitsValue (h : (b :: t).all isDigit = true) (hb : b ≠ 48) :
    10 ^ t.length ≤ digitsValue (b :: t) := by
  rw [List.all_cons, Bool.and_eq_true] at h
  have hdigit := digit_bounds h.1
  have hne : b.toNat ≠ 48 := fun heq => hb (UInt8.toNat_inj.mp heq)
  have hfirst : 1 ≤ digitsValue [b] := by
    change 1 ≤ 10 * 0 + (b.toNat - 48)
    omega
  have happend := digitsValue_append [b] t
  rw [List.singleton_append] at happend
  nlinarith [Nat.pos_of_ne_zero (pow_ne_zero t.length (by decide : 10 ≠ 0))]

theorem digit_eq (h : isDigit b = true) : (48 + (b.toNat - 48)).toUInt8 = b := by
  have hdigit := digit_bounds h
  rw [Nat.add_sub_cancel' hdigit.1]
  exact UInt8.ofNat_toNat

/-- Digits without zeros in front are the way in which their value is written. -/
theorem ofNat_digitsValue (h : (b :: t).all isDigit = true) (hb : b ≠ 48) :
    ofNat (digitsValue (b :: t)) = b :: t := by
  induction t using List.reverseRecOn with
  | nil =>
    rw [List.all_cons, Bool.and_eq_true] at h
    have hdigit := digit_bounds h.1
    have hvalue : digitsValue [b] = b.toNat - 48 := Nat.zero_add _
    rw [hvalue, ofNat, if_pos (by omega), digit_eq h.1]
  | append_singleton t d ih =>
    rw [← List.cons_append, List.all_append, Bool.and_eq_true] at h
    obtain ⟨hfront, hlast⟩ := h
    have hd : isDigit d = true := by simpa using hlast
    have hdigit := digit_bounds hd
    have hge := le_digitsValue hfront hb
    have hpos : 0 < 10 ^ t.length := Nat.pow_pos (by decide)
    rw [← List.cons_append, digitsValue_concat, ofNat, if_neg (by omega),
      show (10 * digitsValue (b :: t) + (d.toNat - 48)) / 10 = digitsValue (b :: t) by omega,
      show (10 * digitsValue (b :: t) + (d.toNat - 48)) % 10 = d.toNat - 48 by omega,
      ih hfront, digit_eq hd]

theorem ofNat_head {n : Nat} (hn : n ≠ 0) : ∃ b t, ofNat n = b :: t ∧ b ≠ 48 := by
  fun_induction ofNat n with
  | case1 n h =>
    have hall : ∀ n, n < 10 → n ≠ 0 → (48 + n).toUInt8 ≠ 48 := by decide
    exact ⟨_, [], rfl, hall n h hn⟩
  | case2 n h ih =>
    obtain ⟨b, t, heq, hb⟩ := ih (by omega)
    exact ⟨b, t ++ [(48 + n % 10).toUInt8], by rw [heq]; rfl, hb⟩

/-- A number that is not zero is at least as large as the number of its digits tells. -/
theorem pow_length_le {n : Nat} (hn : n ≠ 0) : 10 ^ ((ofNat n).length - 1) ≤ n := by
  obtain ⟨b, t, heq, hb⟩ := ofNat_head hn
  have hle := le_digitsValue (heq ▸ (digits_ofNat n).2) hb
  rw [← heq, digitsValue_ofNat] at hle
  rw [heq]
  exact hle

theorem takeWhile_eq {α : Type} [DecidableEq α] (a : α) (l : List α) :
    l.takeWhile (· = a) = List.replicate (l.takeWhile (· = a)).length a := by
  apply List.eq_replicate_of_mem
  intro b hb
  simpa using List.all_eq_true.mp List.all_takeWhile b hb

/-- Zeros in front do not matter. -/
theorem digitsValue_dropWhile (t : Bytes) :
    digitsValue (t.dropWhile (· = 48)) = digitsValue t := by
  have hsplit := List.takeWhile_append_dropWhile (p := fun b : UInt8 => decide (b = 48)) (l := t)
  conv => rhs; rw [← hsplit, digitsValue_append, takeWhile_eq, digitsValue_zeros, Nat.zero_mul,
    Nat.zero_add]

/-- How many digits are left without the zeros in front tells how large a value is. -/
theorem exists_significant (h : t.all isDigit = true) (hvalue : digitsValue t ≠ 0) :
    ∃ b u, t.dropWhile (· = 48) = b :: u ∧ 10 ^ u.length ≤ digitsValue t ∧
      digitsValue t < 10 ^ (u.length + 1) := by
  have hdrop := digitsValue_dropWhile t
  cases hcons : t.dropWhile (· = 48) with
  | nil =>
    rw [hcons] at hdrop
    exact absurd hdrop.symm hvalue
  | cons b u =>
    have hb : b ≠ 48 := by
      have hhead := List.head?_dropWhile_not (fun b : UInt8 => decide (b = 48)) t
      rw [hcons] at hhead
      simpa using hhead
    have hall : (b :: u).all isDigit = true := by
      rw [← hcons, List.all_eq_true]
      intro c hc
      exact List.all_eq_true.mp h c ((List.dropWhile_suffix _).subset hc)
    rw [hcons] at hdrop
    rw [← hdrop]
    exact ⟨b, u, rfl, le_digitsValue hall hb, digitsValue_lt hall⟩

end Backtrack.Numerals

namespace Backtrack.Decimal

open Numerals Bytes

theorem asciiDigits_append (a b : List Nat) :
    asciiDigits (a ++ b) = asciiDigits a ++ asciiDigits b := List.map_append

theorem length_asciiDigits (a : List Nat) : (asciiDigits a).length = a.length := List.length_map _

theorem asciiDigits_zeros (n : Nat) : asciiDigits (List.replicate n 0) = List.replicate n 48 :=
  List.map_replicate

theorem asciiDigits_digitsOf (n : Nat) : asciiDigits (digitsOf n) = ofNat n := by
  unfold asciiDigits digitsOf
  rw [List.map_map]
  conv => rhs; rw [← List.map_id (ofNat n)]
  apply List.map_congr_left
  exact fun b hb => digit_eq (List.all_eq_true.mp (digits_ofNat n).2 b hb)

/-- Digits without a zero in front that denote a number together with the place of the point. -/
structure Digits.Denotes (d : Digits) (r : ℚ) : Prop where
  digits : (asciiDigits d.digits).all isDigit = true
  head : ∃ b t, asciiDigits d.digits = b :: t ∧ b ≠ 48
  value : (digitsValue (asciiDigits d.digits) : ℚ) * 10 ^ (d.point - d.digits.length) = r

theorem exists_trimmed (ds : List Nat) :
    ∃ n, ds = (ds.reverse.dropWhile (· = 0)).reverse ++ List.replicate n 0 := by
  have hsplit := List.takeWhile_append_dropWhile (p := fun d : Nat => decide (d = 0))
    (l := ds.reverse)
  refine ⟨(ds.reverse.takeWhile (· = 0)).length, ?_⟩
  rw [← List.reverse_replicate, ← takeWhile_eq, ← List.reverse_append, hsplit,
    List.reverse_reverse]

theorem denotes_ofScaled {n : Nat} (hn : n ≠ 0) (scale : Int) :
    (Digits.ofScaled n scale).Denotes (n * 10 ^ scale) := by
  obtain ⟨k, hk⟩ := exists_trimmed (digitsOf n)
  have htext : ofNat n = asciiDigits ((digitsOf n).reverse.dropWhile (· = 0)).reverse ++
      List.replicate k 48 := by
    rw [← asciiDigits_digitsOf, ← asciiDigits_zeros, ← asciiDigits_append, ← hk]
  have hlength : (digitsOf n).length =
      ((digitsOf n).reverse.dropWhile (· = 0)).reverse.length + k := by
    conv => lhs; rw [hk, List.length_append, List.length_replicate]
  have hvalue : (n : ℚ) =
      digitsValue (asciiDigits ((digitsOf n).reverse.dropWhile (· = 0)).reverse) * 10 ^ k := by
    conv => lhs; rw [← digitsValue_ofNat n, htext, digitsValue_append, digitsValue_zeros,
      List.length_replicate, Nat.add_zero]
    norm_cast
  unfold Digits.ofScaled
  rw [if_neg hn]
  dsimp only
  generalize ((digitsOf n).reverse.dropWhile (· = 0)).reverse = ds at *
  constructor
  · have hall := (digits_ofNat n).2
    rw [htext, List.all_append, Bool.and_eq_true] at hall
    exact hall.1
  · obtain ⟨b, t, heq, hb⟩ := ofNat_head hn
    cases ds with
    | nil =>
      have hzero : (n : ℚ) = 0 := by simpa [asciiDigits, digitsValue] using hvalue
      exact absurd (Nat.cast_eq_zero.mp hzero) hn
    | cons d ds =>
      obtain ⟨hfirst, _⟩ := List.cons.inj (heq.symm.trans htext)
      exact ⟨b, asciiDigits ds, by rw [hfirst]; rfl, hb⟩
  · have hplace : ((digitsOf n).length : Int) + scale - ds.length = k + scale := by
      rw [hlength]
      push_cast
      ring
    rw [hplace, hvalue, zpow_add₀ (by norm_num), zpow_natCast, mul_assoc]

end Backtrack.Decimal
