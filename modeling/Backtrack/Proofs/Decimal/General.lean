import Backtrack.Proofs.Decimal.Format

/-!
# The general format is read back

In the general format digits are written positionally or with an exponent. Both have as their value
what the digits denote, so the text of a finite number is read as this number. The texts of the two
infinities are no numerals. With a reading of their own every text of the format is read, but for
that of what is no number.
-/

namespace Backtrack.Decimal

open Binary64 Numerals

variable {x : Binary64} {d : Digits} {r : ℚ}

theorem Digits.Denotes.evaluates_positional (h : d.Denotes r) : Evaluates d.positional r := by
  rcases positional_cases h with hamounts | ⟨n, rfl, heq⟩
  · exact hamounts.value
  · exact heq ▸ evaluates_ofNat n

theorem Digits.Denotes.evaluates_scientific (h : d.Denotes r) : Evaluates (d.scientific 0) r := by
  obtain ⟨mantissa, digits, places, hmantissa, heq, hvalue⟩ := exists_scientific h
  obtain ⟨sign, digits', hsign, hdigits', hexponent, htext⟩ := exists_exponentText d.exponent
  rw [heq, htext]
  exact ⟨_, _, _, _, _, hmantissa, .some (.inl rfl) hsign hdigits',
    readExponent?_eq (.inl rfl) hsign hdigits', rfl, by rw [hexponent, hvalue]⟩

theorem Digits.Denotes.evaluates_general (h : d.Denotes r) : Evaluates (general.render d) r := by
  unfold general
  dsimp only
  split
  · exact h.evaluates_scientific
  · exact h.evaluates_positional

/-- A finite number is read back, also a zero of either sign. -/
theorem readFloat_general_text (h : x.Finite) : readFloat (general.text x) = .ok x := by
  cases hzero : x.isZero with
  | true =>
    rw [eq_zero hzero]
    cases x.negative <;> decide +kernel
  | false =>
    obtain ⟨r, hdigits, hr⟩ : ∃ r, (general.digits x).Denotes r ∧ x.Covers r :=
      exists_shortest hzero
    exact Format.readFloat_text h hzero hdigits.evaluates_general hr

/-- What is not finite is an infinity, if it is a number at all. -/
theorem finite_or_infinity (h : x.isNaN = false) : x.Finite ∨ x = infinity x.negative := by
  have hfield := field_lt x
  rcases Nat.lt_or_eq_of_le (Nat.le_of_lt_succ hfield) with hfinite | heq
  · exact .inl hfinite
  · have hfraction : x.fraction = 0 := by simpa [isNaN, heq] using h
    have hparts := ofFields_eq x
    rw [heq, hfraction] at hparts
    exact .inr hparts.symm

def ofGeneral? (t : Bytes) : Option Binary64 :=
  match readFloat t with
  | .ok x => some x
  | .error _ =>
    if t = "+Inf" then some (infinity false)
    else if t = "-Inf" then some (infinity true)
    else none

theorem ofGeneral?_text (h : x.isNaN = false) : ofGeneral? (general.text x) = some x := by
  rcases finite_or_infinity h with hfinite | hinfinity
  · rw [ofGeneral?, readFloat_general_text hfinite]
  · rw [hinfinity]
    cases x.negative <;> decide +kernel

end Backtrack.Decimal
