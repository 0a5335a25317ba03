import Backtrack.Proofs.Decimal.Numerals
import Backtrack.Proofs.Regex.Preference

/-!
# Patterns of numerals

The usual patterns for the parts of a numeral match these parts only, and of a part that ends where
it does they prefer the whole.
-/

namespace Backtrack.Numerals

open Regex Text

variable {β : Type} {text : Array UInt8} {start : Nat} {t u : Bytes} {k : Bytes → Option β} {x : β}

theorem contains_digit (b : UInt8) : CharClass.digit.contains b.toNat = Bytes.isDigit b := by
  revert b
  exact Bytes.forall_byte (by decide +kernel)

theorem contains_sign (b : UInt8) : (CharClass.ofString "+-").contains b.toNat = isSign b := by
  revert b
  exact Bytes.forall_byte (by decide +kernel)

theorem contains_exponent (b : UInt8) : (CharClass.ofString "eE").contains b.toNat =
    (b = Bytes.ascii 'e' || b = Bytes.ascii 'E') := by
  revert b
  exact Bytes.forall_byte (by decide +kernel)

theorem contains_point (b : UInt8) :
    (CharClass.single '.').contains b.toNat = (b = Bytes.ascii '.' : Bool) := by
  revert b
  exact Bytes.forall_byte (by decide +kernel)

def signPattern : Regex := .opt true (.chars (.ofString "+-"))

def digitsPattern : Regex := .plus true (.chars .digit)

def fractionPattern : Regex :=
  .seq (.seq (.star true (.chars .digit)) (.chars (.single '.'))) digitsPattern

def exponentPattern : Regex := .seq (.seq (.chars (.ofString "eE")) signPattern) digitsPattern

theorem narrow_digit : Narrow .digit := narrow_ranges (by decide)

theorem narrow_sign : Narrow (.ofString "+-") := narrow_ranges (by decide)

theorem narrow_exponent : Narrow (.ofString "eE") := narrow_ranges (by decide)

theorem narrow_point : Narrow (.single '.') := narrow_ranges (by decide)

theorem digits_iff {run : Bytes} :
    Digits run ↔ run ≠ [] ∧ ∀ b ∈ run, CharClass.digit.contains b.toNat = true := by
  simp only [Digits, List.all_eq_true, contains_digit]

theorem of_tries_sign (ht : t <:+ text.toList) (h : tries text start signPattern t k = some x) :
    ∃ sign u, Sign sign ∧ t = sign ++ u ∧ k u = some x := by
  rw [signPattern, tries_opt ht] at h
  rcases Option.or_eq_some_iff.mp h with h | ⟨_, h⟩
  · obtain ⟨b, u, rfl, hb, hu⟩ := of_tries_narrow narrow_sign ht h
    simp only [contains_sign, isSign, Bool.or_eq_true, decide_eq_true_eq] at hb
    rcases hb with rfl | rfl
    · exact ⟨_, u, .plus, rfl, hu⟩
    · exact ⟨_, u, .minus, rfl, hu⟩
  · exact ⟨[], t, .none, rfl, h⟩

theorem of_tries_digits (ht : t <:+ text.toList)
    (h : tries text start digitsPattern t k = some x) :
    ∃ digits u, Digits digits ∧ t = digits ++ u ∧ k u = some x := by
  obtain ⟨run, u, rfl, hne, hrun, hu⟩ := of_tries_plus_narrow narrow_digit ht h
  exact ⟨run, u, digits_iff.mpr ⟨hne, hrun⟩, rfl, hu⟩

theorem of_tries_mantissa (ht : t <:+ text.toList)
    (h : tries text start (.alt fractionPattern digitsPattern) t k = some x) :
    ∃ mantissa u, Mantissa mantissa ∧ t = mantissa ++ u ∧ k u = some x := by
  rw [tries_alt] at h
  rcases Option.or_eq_some_iff.mp h with h | ⟨_, h⟩
  · rw [fractionPattern, tries_seq, tries_seq] at h
    obtain ⟨whole, v, rfl, hwhole, h⟩ := of_tries_star_narrow narrow_digit ht h
    have hv := suffix_of_append ht
    obtain ⟨b, w, rfl, hb, h⟩ := of_tries_narrow narrow_point hv h
    obtain ⟨part, u, hpart, rfl, hu⟩ := of_tries_digits ((List.suffix_cons b w).trans hv) h
    simp only [contains_point, decide_eq_true_eq] at hb
    subst hb
    simp only [contains_digit] at hwhole
    refine ⟨_, u, .point (List.all_eq_true.mpr hwhole) hpart, ?_, hu⟩
    simp
  · obtain ⟨digits, u, hdigits, rfl, hu⟩ := of_tries_digits ht h
    exact ⟨digits, u, .whole hdigits, rfl, hu⟩

theorem of_tries_exponent (ht : t <:+ text.toList)
    (h : tries text start (.opt true exponentPattern) t k = some x) :
    ∃ exponent u, Exponent exponent ∧ t = exponent ++ u ∧ k u = some x := by
  rw [tries_opt ht] at h
  rcases Option.or_eq_some_iff.mp h with h | ⟨_, h⟩
  · rw [exponentPattern, tries_seq, tries_seq] at h
    obtain ⟨e, v, rfl, he, h⟩ := of_tries_narrow narrow_exponent ht h
    have hv := (List.suffix_cons e v).trans ht
    obtain ⟨sign, w, hsign, rfl, hw⟩ := of_tries_sign hv h
    obtain ⟨digits, u, hdigits, rfl, hu⟩ := of_tries_digits (suffix_of_append hv) hw
    simp only [contains_exponent, Bool.or_eq_true, decide_eq_true_eq] at he
    refine ⟨_, u, .some he hsign hdigits, ?_, hu⟩
    simp
  · exact ⟨[], t, .none, rfl, h⟩

theorem headNot_digit (h : HeadNot Bytes.isDigit t) :
    HeadNot (fun b => CharClass.digit.contains b.toNat) t := by
  simpa only [contains_digit] using h

theorem tries_digits_run {digits : Bytes} (ht : digits ++ u <:+ text.toList) (h : Digits digits)
    (hhead : HeadNot Bytes.isDigit u) (hu : k u = some x) :
    tries text start digitsPattern (digits ++ u) k = some x := by
  obtain ⟨hne, hrun⟩ := digits_iff.mp h
  exact tries_plus_run narrow_digit ht hne hrun (headNot_digit hhead) hu

theorem tries_sign_all {sign : Bytes} (ht : sign ++ u <:+ text.toList) (h : Sign sign)
    (hhead : HeadNot isSign u) (hu : k u = some x) :
    tries text start signPattern (sign ++ u) k = some x := by
  rw [signPattern, tries_opt ht]
  cases h with
  | none =>
    rw [List.nil_append] at ht ⊢
    rw [tries_narrow_none narrow_sign ht (by simpa only [contains_sign] using hhead)]
    exact hu
  | plus | minus =>
    rw [List.singleton_append] at ht ⊢
    rw [tries_narrow narrow_sign ht, contains_sign, hu]
    rfl

/-- Digits without a point and a digit behind them are not the start of a fraction. -/
theorem tries_fraction_none {whole : Bytes} (ht : whole ++ u <:+ text.toList)
    (hwhole : ∀ b ∈ whole, Bytes.isDigit b = true) (hhead : HeadNot Bytes.isDigit u)
    (hpart : ¬ StartsPart u) :
    tries text start fractionPattern (whole ++ u) k = none := by
  have hpoint : ∀ {v : Bytes} {k : Bytes → Option β}, v <:+ text.toList →
      HeadNot (fun b => b = Bytes.ascii '.') v →
      tries text start (.chars (.single '.')) v k = none := by
    intro v k hv hhead
    exact tries_narrow_none narrow_point hv (by simpa only [contains_point] using hhead)
  rw [fractionPattern, tries_seq, tries_seq]
  induction whole with
  | nil =>
    rw [List.nil_append] at ht ⊢
    rw [tries_star (single_chars _) rfl ht, tries_narrow_none narrow_digit ht (headNot_digit hhead),
      Option.none_or]
    -- Where a point is, no digit is behind it.
    apply Option.eq_none_iff_forall_ne_some.mpr
    intro x hx
    obtain ⟨b, v, rfl, hb, hv⟩ := of_tries_narrow narrow_point ht hx
    obtain ⟨digits, w, hdigits, rfl, _⟩ := of_tries_digits ((List.suffix_cons b v).trans ht) hv
    obtain ⟨d, rest, rfl, hd⟩ := hdigits.head
    rw [contains_point, decide_eq_true_eq] at hb
    exact hpart ⟨d, rest ++ w, by rw [hb]; rfl, hd⟩
  | cons b whole ih =>
    rw [List.cons_append] at ht ⊢
    have hb : Bytes.isDigit b = true := hwhole b List.mem_cons_self
    have hmark : HeadNot (fun b => b = Bytes.ascii '.') (b :: (whole ++ u)) := by
      rw [headNot_cons, decide_eq_false_iff_not]
      rintro rfl
      exact absurd hb (by decide)
    have hrest := ih ((List.suffix_cons b _).trans ht) fun c hc =>
      hwhole c (List.mem_cons_of_mem b hc)
    rw [tries_star_narrow narrow_digit ht, contains_digit, hb, if_pos rfl, hrest, hpoint ht hmark]
    rfl

theorem tries_mantissa_all {mantissa : Bytes} (ht : mantissa ++ u <:+ text.toList)
    (h : Mantissa mantissa) (hdigit : HeadNot Bytes.isDigit u)
    (hpart : mantissa.all Bytes.isDigit = true → ¬ StartsPart u) (hu : k u = some x) :
    tries text start (.alt fractionPattern digitsPattern) (mantissa ++ u) k = some x := by
  rw [tries_alt]
  cases h with
  | whole hdigits =>
    have hwhole := List.all_eq_true.mp hdigits.2
    rw [tries_fraction_none ht hwhole hdigit (hpart hdigits.2), Option.none_or]
    exact tries_digits_run ht hdigits hdigit hu
  | @point whole part hwhole hdigits =>
    have hfraction : tries text start fractionPattern ((whole ++ Bytes.ascii '.' :: part) ++ u) k =
        some x := by
      rw [List.append_assoc, List.cons_append] at ht ⊢
      have hv := suffix_of_append ht
      rw [fractionPattern, tries_seq, tries_seq]
      refine tries_star_run narrow_digit ht ?_ ?_ ?_
      · simpa only [contains_digit] using List.all_eq_true.mp hwhole
      · exact headNot_cons.mpr (by decide)
      · rw [tries_narrow narrow_point hv, contains_point, if_pos (by decide)]
        exact tries_digits_run ((List.suffix_cons _ _).trans hv) hdigits hdigit hu
    rw [hfraction]
    rfl

theorem tries_exponent_all {exponent : Bytes} (ht : exponent ++ u <:+ text.toList)
    (h : Exponent exponent) (hdigit : HeadNot Bytes.isDigit u)
    (hnone : exponent = [] → ¬ StartsExponent u) (hu : k u = some x) :
    tries text start (.opt true exponentPattern) (exponent ++ u) k = some x := by
  rw [tries_opt ht, exponentPattern, tries_seq, tries_seq]
  cases h with
  | none =>
    rw [List.nil_append] at ht ⊢
    have hmiss : tries text start (.chars (.ofString "eE")) u (fun v =>
        tries text start signPattern v fun w => tries text start digitsPattern w k) = none := by
      apply Option.eq_none_iff_forall_ne_some.mpr
      intro y hy
      obtain ⟨e, v, rfl, he, hv⟩ := of_tries_narrow narrow_exponent ht hy
      have hsuffix := (List.suffix_cons e v).trans ht
      obtain ⟨sign, w, hsign, rfl, hw⟩ := of_tries_sign hsuffix hv
      obtain ⟨digits, r, hdigits, rfl, _⟩ := of_tries_digits (suffix_of_append hsuffix) hw
      obtain ⟨d, rest, rfl, hd⟩ := hdigits.head
      simp only [contains_exponent, Bool.or_eq_true, decide_eq_true_eq] at he
      exact hnone rfl ⟨e, sign, d, rest ++ r, rfl, he, hsign, hd⟩
    rw [hmiss]
    exact hu
  | @some e sign digits he hsign hdigits =>
    have hclass : (CharClass.ofString "eE").contains e.toNat = true := by
      rw [contains_exponent]
      simpa using he
    rw [List.cons_append, List.append_assoc] at ht ⊢
    have hv := (List.suffix_cons e _).trans ht
    have hsigned : tries text start signPattern (sign ++ (digits ++ u))
        (fun v => tries text start digitsPattern v k) = some x := by
      refine tries_sign_all hv hsign (hdigits.headNot_sign u) ?_
      exact tries_digits_run (suffix_of_append hv) hdigits hdigit hu
    rw [tries_narrow narrow_exponent ht, if_pos hclass, hsigned]
    rfl

end Backtrack.Numerals
