import Backtrack.Json.Grammar
import Backtrack.Proofs.Json.Language
import Backtrack.Proofs.Regex.Numerals

/-!
# Numbers in JSON

The pattern of numbers matches numerals only, and of a numeral that ends where it does it prefers
the whole. The value that is computed from a numeral is the one it denotes.
-/

namespace Backtrack.Json

open Numerals Regex Text

variable {β : Type} {text : Array UInt8} {t u : Bytes} {k : Bytes → Option β} {x : β}

theorem numberPattern_eq : numberPattern =
    .seq (.seq (.seq (.check .beginText) signPattern) (.alt fractionPattern digitsPattern))
      (.opt true exponentPattern) := rfl

theorem of_tries_number (ht : t <:+ text.toList)
    (h : tries text (placeOf text t) numberPattern t k = some x) :
    ∃ numeral u, Numeral numeral ∧ t = numeral ++ u ∧ k u = some x := by
  rw [numberPattern_eq, tries_seq, tries_seq, tries_anchor ht] at h
  obtain ⟨sign, v, hsign, rfl, h⟩ := of_tries_sign ht h
  have hv := suffix_of_append ht
  obtain ⟨mantissa, w, hmantissa, rfl, h⟩ := of_tries_mantissa hv h
  have hw := suffix_of_append hv
  obtain ⟨exponent, u, hexponent, rfl, hu⟩ := of_tries_exponent hw h
  refine ⟨_, u, ⟨sign, mantissa, exponent, hsign, hmantissa, hexponent, rfl⟩, ?_, hu⟩
  simp

/-- The pattern of numbers prefers the whole of a numeral that ends where it does. -/
theorem tries_number_all {numeral : Bytes} (ht : numeral ++ u <:+ text.toList)
    (h : Ended numeral u) (hu : k u = some x) :
    tries text (placeOf text (numeral ++ u)) numberPattern (numeral ++ u) k = some x := by
  obtain ⟨sign, mantissa, exponent, hsign, hmantissa, hexponent, rfl, hdigit, hnone⟩ := h
  rw [numberPattern_eq, tries_seq, tries_seq, tries_anchor ht]
  rw [List.append_assoc, List.append_assoc] at ht ⊢
  have hv := suffix_of_append ht
  have hexponentDigit : HeadNot Bytes.isDigit (exponent ++ u) := by
    cases hexponent with
    | none => exact hdigit
    | some he =>
      apply headNot_cons.mpr
      rcases he with rfl | rfl <;> decide
  have hpart : mantissa.all Bytes.isDigit = true → ¬ StartsPart (exponent ++ u) := by
    intro hall
    cases hexponent with
    | none => exact (hnone rfl).2 hall
    | some he =>
      rintro ⟨b, rest, heq, _⟩
      obtain ⟨rfl, _⟩ := List.cons.inj heq
      exact absurd he (by decide)
  refine tries_sign_all ht hsign (hmantissa.headNot_sign _) ?_
  refine tries_mantissa_all hv hmantissa hexponentDigit hpart ?_
  exact tries_exponent_all (suffix_of_append hv) hexponent hdigit (fun h => (hnone h).1) hu

theorem readNumber_iff (h : Numeral t) {v : Value} : readNumber t = .ok v ↔ NumberToken v t := by
  have hmarks : (fun b => b = Bytes.ascii '.' || b = Bytes.ascii 'e' || b = Bytes.ascii 'E') =
      isFractionMark := rfl
  unfold readNumber
  rw [hmarks]
  constructor
  · intro hread
    split at hread
    · rename_i hmark
      split at hread
      · rename_i f hf
        cases hread
        exact .float h hmark hf
      · cases hread
    · rename_i hmark
      obtain ⟨sign, digits, hsign, hdigits, rfl⟩ := h.integral (Bool.not_eq_true _ ▸ hmark)
      split at hread
      · rename_i i hi
        obtain ⟨rfl, hmin, hmax⟩ := (readInt_iff hsign hdigits).mp hi
        cases hread
        exact .int hsign hdigits hmin hmax
      · cases hread
  · rintro (⟨hsign, hdigits, hmin, hmax⟩ | ⟨_, hmark, hf⟩)
    · rename_i sign digits
      have hmark : (sign ++ digits).any isFractionMark = false := by
        rw [List.any_append, hsign.any_fractionMark, any_fractionMark_digits hdigits.2]
        rfl
      rw [hmark, (readInt_iff hsign hdigits).mpr ⟨rfl, hmin, hmax⟩]
      rfl
    · rw [if_pos hmark, hf]

def BeyondRange (t : Bytes) : Prop :=
  if t.any isFractionMark then Decimal.readFloat t = .error .outOfRange
  else Decimal.readInt t = .error .outOfRange

/-- Only the size of a numeral can keep it from being read. -/
theorem beyondRange_of_error (h : Numeral t) {error : Error} (hread : readNumber t = .error error) :
    BeyondRange t := by
  unfold BeyondRange
  split
  · rename_i hmark
    cases hf : Decimal.readFloat t with
    | ok f =>
      have hok := (readNumber_iff h).mpr (.float h hmark hf)
      rw [hread] at hok
      cases hok
    | error defect =>
      cases defect with
      | malformed => exact absurd hf h.not_malformed
      | outOfRange => rfl
  · rename_i hmark
    obtain ⟨sign, digits, hsign, hdigits, rfl⟩ := h.integral (Bool.not_eq_true _ ▸ hmark)
    unfold Decimal.readInt
    rw [integer?_eq hsign hdigits]
    dsimp only
    split
    · rename_i hrange
      have hok := (readNumber_iff h).mpr (.int hsign hdigits hrange.1 hrange.2)
      rw [hread] at hok
      cases hok
    · rfl

theorem NumberToken.numeral {v : Value} (h : NumberToken v t) : Numeral t := by
  cases h with
  | int hsign hdigits =>
    exact ⟨_, _, [], hsign, .whole hdigits, .none, (List.append_nil _).symm⟩
  | float ht => exact ht

end Backtrack.Json
