import Mathlib.Algebra.Group.Int.Defs
import Mathlib.Algebra.Group.Nat.Defs
import Backtrack.Decimal.Numeral
import Backtrack.Proofs.Text.Blank

/-!
# Numerals

How numbers are written, part by part, and what reading makes of them. A numeral is never malformed,
so a number can be refused for its size only.
-/

namespace Backtrack.Numerals

open Text

inductive Sign : Bytes → Prop where
  | none : Sign []
  | plus : Sign [Bytes.ascii '+']
  | minus : Sign [Bytes.ascii '-']

def Digits (t : Bytes) : Prop := t ≠ [] ∧ t.all Bytes.isDigit = true

inductive Mantissa : Bytes → Prop where
  | whole {digits : Bytes} (h : Digits digits) : Mantissa digits
  | point {whole part : Bytes} (hwhole : whole.all Bytes.isDigit = true) (hpart : Digits part) :
      Mantissa (whole ++ Bytes.ascii '.' :: part)

inductive Exponent : Bytes → Prop where
  | none : Exponent []
  | some {e : UInt8} {sign digits : Bytes} (he : e = Bytes.ascii 'e' ∨ e = Bytes.ascii 'E')
      (hsign : Sign sign) (hdigits : Digits digits) : Exponent (e :: (sign ++ digits))

def Numeral (t : Bytes) : Prop :=
  ∃ sign mantissa exponent, Sign sign ∧ Mantissa mantissa ∧ Exponent exponent ∧
    t = sign ++ mantissa ++ exponent

def isFractionMark (b : UInt8) : Bool :=
  b = Bytes.ascii '.' || b = Bytes.ascii 'e' || b = Bytes.ascii 'E'

def signedValue (sign digits : Bytes) : Int :=
  if sign = [Bytes.ascii '-'] then -(Bytes.digitsValue digits : Int) else Bytes.digitsValue digits

def isSign (b : UInt8) : Bool := b = Bytes.ascii '+' || b = Bytes.ascii '-'

def continuesMantissa (b : UInt8) : Bool := Bytes.isDigit b || b = Bytes.ascii '.'

def continuesNumeral (b : UInt8) : Bool := Bytes.isDigit b || isFractionMark b

def startsNumber (b : UInt8) : Bool :=
  Bytes.isDigit b || b = Bytes.ascii '+' || b = Bytes.ascii '-' || b = Bytes.ascii '.'

variable {sign digits t u r : Bytes}

theorem Digits.head {digits : Bytes} (h : Digits digits) :
    ∃ b rest, digits = b :: rest ∧ Bytes.isDigit b = true := by
  cases digits with
  | nil => exact absurd rfl h.1
  | cons b rest =>
    rw [Digits, List.all_cons, Bool.and_eq_true] at h
    exact ⟨b, rest, rfl, h.2.1⟩

theorem not_sign_of_digit {b : UInt8} (hb : Bytes.isDigit b = true) : isSign b = false := by
  have hall : ∀ b : UInt8, Bytes.isDigit b = true → isSign b = false :=
    Bytes.forall_byte (by decide +kernel)
  exact hall b hb

theorem Digits.headNot_sign {digits : Bytes} (h : Digits digits) (u : Bytes) :
    HeadNot isSign (digits ++ u) := by
  obtain ⟨b, rest, rfl, hb⟩ := h.head
  exact headNot_cons.mpr (not_sign_of_digit hb)

theorem Mantissa.head {mantissa : Bytes} (h : Mantissa mantissa) :
    ∃ b rest, mantissa = b :: rest ∧ (Bytes.isDigit b = true ∨ b = Bytes.ascii '.') := by
  cases h with
  | whole hdigits =>
    obtain ⟨b, rest, rfl, hb⟩ := hdigits.head
    exact ⟨b, rest, rfl, .inl hb⟩
  | @point whole part hwhole hpart =>
    cases whole with
    | nil => exact ⟨_, part, rfl, .inr rfl⟩
    | cons b whole =>
      rw [List.all_cons, Bool.and_eq_true] at hwhole
      exact ⟨b, _, rfl, .inl hwhole.1⟩

theorem Mantissa.headNot_sign {mantissa : Bytes} (h : Mantissa mantissa) (u : Bytes) :
    HeadNot isSign (mantissa ++ u) := by
  obtain ⟨b, rest, rfl, hb | rfl⟩ := h.head
  · exact headNot_cons.mpr (not_sign_of_digit hb)
  · exact headNot_cons.mpr (by decide)

theorem Exponent.headNot_mantissa {exponent : Bytes} (h : Exponent exponent)
    (hu : HeadNot continuesMantissa u) : HeadNot continuesMantissa (exponent ++ u) := by
  cases h with
  | none => exact hu
  | some he hsign hdigits =>
    rw [List.cons_append, headNot_cons]
    rcases he with rfl | rfl <;> decide

theorem Numeral.head {numeral : Bytes} (h : Numeral numeral) :
    ∃ b rest, numeral = b :: rest ∧ startsNumber b = true := by
  obtain ⟨sign, mantissa, exponent, hsign, hmantissa, _, rfl⟩ := h
  cases hsign with
  | none =>
    obtain ⟨b, rest, rfl, hb⟩ := hmantissa.head
    refine ⟨b, rest ++ exponent, rfl, ?_⟩
    rcases hb with hb | rfl
    · simp [startsNumber, hb]
    · decide
  | plus => exact ⟨_, mantissa ++ exponent, rfl, by decide⟩
  | minus => exact ⟨_, mantissa ++ exponent, rfl, by decide⟩

theorem visible_startsNumber : Visible startsNumber := Bytes.forall_byte (by decide +kernel)

theorem visible_continuesNumeral : Visible continuesNumeral :=
  Bytes.forall_byte (by decide +kernel)

theorem visible_continuesMantissa : Visible continuesMantissa :=
  Bytes.forall_byte (by decide +kernel)

def StartsPart (t : Bytes) : Prop :=
  ∃ b rest, t = Bytes.ascii '.' :: b :: rest ∧ Bytes.isDigit b = true

/-- The letter of an exponent with a digit behind it, perhaps behind a sign. -/
def StartsExponent (t : Bytes) : Prop :=
  ∃ e sign b rest, t = e :: (sign ++ b :: rest) ∧ (e = Bytes.ascii 'e' ∨ e = Bytes.ascii 'E') ∧
    Sign sign ∧ Bytes.isDigit b = true

/-- A numeral in front of a text of which no part belongs to it. -/
def Ended (t u : Bytes) : Prop :=
  ∃ sign mantissa exponent, Sign sign ∧ Mantissa mantissa ∧ Exponent exponent ∧
    t = sign ++ mantissa ++ exponent ∧ HeadNot Bytes.isDigit u ∧
    (exponent = [] → ¬ StartsExponent u ∧ (mantissa.all Bytes.isDigit = true → ¬ StartsPart u))

theorem Ended.numeral (h : Ended t u) : Numeral t := by
  obtain ⟨sign, mantissa, exponent, hsign, hmantissa, hexponent, rfl, _⟩ := h
  exact ⟨sign, mantissa, exponent, hsign, hmantissa, hexponent, rfl⟩

theorem not_startsPart (hu : HeadNot continuesMantissa u) : ¬ StartsPart u := by
  rintro ⟨b, rest, rfl, _⟩
  exact absurd (headNot_cons.mp hu) (by decide)

theorem not_startsExponent (hu : HeadNot isFractionMark u) : ¬ StartsExponent u := by
  rintro ⟨e, sign, b, rest, rfl, rfl | rfl, _⟩
  · exact absurd (headNot_cons.mp hu) (by decide)
  · exact absurd (headNot_cons.mp hu) (by decide)

theorem Numeral.ended (h : Numeral t) (hu : HeadNot continuesNumeral u) : Ended t u := by
  obtain ⟨sign, mantissa, exponent, hsign, hmantissa, hexponent, rfl⟩ := h
  have hmark : HeadNot isFractionMark u :=
    headNot_mono hu fun b hb => (Bool.or_eq_false_iff.mp hb).2
  refine ⟨sign, mantissa, exponent, hsign, hmantissa, hexponent, rfl, ?_,
    fun _ => ⟨?_, fun _ => ?_⟩⟩
  · exact headNot_mono hu fun b hb => (Bool.or_eq_false_iff.mp hb).1
  · exact not_startsExponent hmark
  · apply not_startsPart
    apply headNot_mono hu
    intro b hb
    simp only [continuesNumeral, continuesMantissa, isFractionMark, Bool.or_eq_false_iff] at hb ⊢
    exact ⟨hb.1, hb.2.1.1⟩

/-- Behind a point that comes first a numeral has a digit. -/
theorem Numeral.part (h : Numeral (Bytes.ascii '.' :: t)) :
    ∃ b rest, t = b :: rest ∧ Bytes.isDigit b = true := by
  obtain ⟨sign, mantissa, exponent, hsign, hmantissa, _, heq⟩ := h
  rw [List.append_assoc] at heq
  cases hsign with
  | none =>
    cases hmantissa with
    | whole hdigits =>
      obtain ⟨b, rest, rfl, hb⟩ := hdigits.head
      obtain ⟨rfl, _⟩ := List.cons.inj heq
      exact absurd hb (by decide)
    | @point whole part hwhole hpart =>
      cases whole with
      | nil =>
        obtain ⟨b, rest, rfl, hb⟩ := hpart.head
        obtain ⟨_, rfl⟩ := List.cons.inj heq
        exact ⟨b, rest ++ exponent, rfl, hb⟩
      | cons b whole =>
        rw [List.all_cons, Bool.and_eq_true] at hwhole
        obtain ⟨rfl, _⟩ := List.cons.inj heq
        exact absurd hwhole.1 (by decide)
  | plus | minus => exact absurd (List.cons.inj heq).1 (by decide)

/-- Where a numeral ends in front of another one does not depend on what comes later. -/
theorem Ended.behind {token : Bytes} (h : Ended t (token ++ u)) (htoken : Numeral token)
    (r : Bytes) : Ended t (token ++ r) := by
  obtain ⟨b, rest, rfl, hb⟩ := htoken.head
  obtain ⟨sign, mantissa, exponent, hsign, hmantissa, hexponent, rfl, hdigit, hnone⟩ := h
  refine ⟨sign, mantissa, exponent, hsign, hmantissa, hexponent, rfl, ?_, fun hempty => ⟨?_, ?_⟩⟩
  · exact headNot_cons.mpr (headNot_cons.mp hdigit)
  · rintro ⟨e, _, _, _, heq, he, _⟩
    obtain ⟨rfl, _⟩ := List.cons.inj heq
    rcases he with rfl | rfl
    · exact absurd hb (by decide)
    · exact absurd hb (by decide)
  · rintro hall ⟨d, more, heq, _⟩
    obtain ⟨rfl, _⟩ := List.cons.inj heq
    obtain ⟨c, rest, rfl, hc⟩ := htoken.part
    exact (hnone hempty).2 hall ⟨c, rest ++ u, rfl, hc⟩

theorem exists_digits (t : Bytes) :
    ∃ run u : Bytes, t = run ++ u ∧ run.all Bytes.isDigit = true ∧ HeadNot Bytes.isDigit u := by
  refine ⟨t.takeWhile Bytes.isDigit, t.dropWhile Bytes.isDigit, ?_, List.all_takeWhile, ?_⟩
  · exact List.takeWhile_append_dropWhile.symm
  · intro b hb
    have h := List.head?_dropWhile_not Bytes.isDigit t
    rw [hb] at h
    simpa using h

theorem exists_digits_cons {b : UInt8} (hb : Bytes.isDigit b = true) (t : Bytes) :
    ∃ run u : Bytes, b :: t = run ++ u ∧ Digits run ∧ HeadNot Bytes.isDigit u := by
  obtain ⟨run, u, rfl, hrun, hu⟩ := exists_digits t
  refine ⟨b :: run, u, rfl, ⟨List.cons_ne_nil _ _, ?_⟩, hu⟩
  rw [List.all_cons, hb, hrun]
  rfl

/-- A text that begins with a mantissa begins with one that is as long as possible. -/
theorem Mantissa.extend {mantissa : Bytes} (h : Mantissa mantissa) (u : Bytes) :
    ∃ longest r, mantissa ++ u = longest ++ r ∧ Mantissa longest ∧ HeadNot Bytes.isDigit r ∧
      (longest.all Bytes.isDigit = true → ¬ StartsPart r) := by
  obtain ⟨b, rest, hcons, hb⟩ := h.head
  obtain ⟨run, r, heq, hrun, hr⟩ := exists_digits (mantissa ++ u)
  by_cases hpart : StartsPart r
  · obtain ⟨d, more, rfl, hd⟩ := hpart
    obtain ⟨part, r, hmore, hdigits, hr⟩ := exists_digits_cons hd more
    refine ⟨run ++ Bytes.ascii '.' :: part, r, ?_, .point hrun hdigits, hr, ?_⟩
    · rw [heq, hmore]
      simp
    · intro hall
      rw [List.all_append, List.all_cons, Bool.and_eq_true, Bool.and_eq_true] at hall
      exact absurd hall.2.1 (by decide)
  · refine ⟨run, r, heq, .whole ⟨?_, hrun⟩, hr, fun _ => hpart⟩
    -- Without a digit in front there would be a point in front, with a digit behind it.
    rintro rfl
    rw [List.nil_append] at heq
    cases h with
    | whole hdigits =>
      obtain ⟨b, rest, rfl, hb⟩ := hdigits.head
      rw [← heq, List.cons_append, headNot_cons, hb] at hr
      cases hr
    | @point whole part hwhole hdigits =>
      cases whole with
      | nil =>
        obtain ⟨b, rest, rfl, hb⟩ := hdigits.head
        exact hpart ⟨b, rest ++ u, heq.symm, hb⟩
      | cons b whole =>
        rw [List.all_cons, Bool.and_eq_true] at hwhole
        rw [← heq, List.cons_append, List.cons_append, headNot_cons, hwhole.1] at hr
        cases hr

/-- A text that begins with a numeral begins with one that ends there. -/
theorem exists_ended (h : Numeral t) (u : Bytes) : ∃ t' u', t ++ u = t' ++ u' ∧ Ended t' u' := by
  obtain ⟨sign, mantissa, exponent, hsign, hmantissa, _, rfl⟩ := h
  obtain ⟨longest, r, heq, hlongest, hr, hpart⟩ := hmantissa.extend (exponent ++ u)
  have hsplit : sign ++ mantissa ++ exponent ++ u = sign ++ (longest ++ r) := by
    rw [← heq]
    simp
  by_cases hexponent : StartsExponent r
  · obtain ⟨e, sign', b, rest, rfl, he, hsign', hb⟩ := hexponent
    obtain ⟨digits, r, hrest, hdigits, hr⟩ := exists_digits_cons hb rest
    refine ⟨sign ++ longest ++ e :: (sign' ++ digits), r, ?_, sign, longest, _, hsign, hlongest,
      .some he hsign' hdigits, rfl, hr, nofun⟩
    rw [hsplit, hrest]
    simp
  · refine ⟨sign ++ longest, r, ?_, sign, longest, [], hsign, hlongest, .none, ?_, hr, ?_⟩
    · rw [hsplit, List.append_assoc]
    · rw [List.append_nil]
    · exact fun _ => ⟨hexponent, hpart⟩

theorem splitSign_eq (hsign : Sign sign) (ht : HeadNot isSign t) :
    Decimal.splitSign (sign ++ t) = (decide (sign = [Bytes.ascii '-']), t) := by
  cases hsign with
  | none =>
    rw [List.nil_append, Decimal.splitSign.eq_3]
    · rfl
    · rintro rest rfl
      exact absurd (headNot_cons.mp ht) (by decide)
    · rintro rest rfl
      exact absurd (headNot_cons.mp ht) (by decide)
  | plus => rfl
  | minus => rfl

theorem integer?_eq (hsign : Sign sign) (hdigits : Digits digits) :
    Decimal.integer? (sign ++ digits) = some (signedValue sign digits) := by
  have hnot : HeadNot isSign digits := by simpa using hdigits.headNot_sign []
  unfold Decimal.integer? signedValue
  rw [splitSign_eq hsign hnot]
  dsimp only
  rw [hdigits.2]
  simp [hdigits.1]

theorem minInt_eq : Decimal.minInt = -2 ^ 63 := rfl

theorem maxInt_eq : Decimal.maxInt = 2 ^ 63 - 1 := rfl

/-- An integer is read exactly if it fits into 64 bits. -/
theorem readInt_iff (hsign : Sign sign) (hdigits : Digits digits) {i : Int} :
    Decimal.readInt (sign ++ digits) = .ok i ↔
      i = signedValue sign digits ∧ -2 ^ 63 ≤ i ∧ i ≤ 2 ^ 63 - 1 := by
  unfold Decimal.readInt
  rw [integer?_eq hsign hdigits, minInt_eq, maxInt_eq]
  dsimp only
  constructor
  · intro h
    split at h
    · rename_i hrange
      cases h
      exact ⟨rfl, hrange⟩
    · cases h
  · rintro ⟨rfl, hrange⟩
    rw [if_pos hrange]

theorem not_fractionMark {b : UInt8} (hb : Bytes.isDigit b = true) : isFractionMark b = false := by
  have hall : ∀ b : UInt8, Bytes.isDigit b = true → isFractionMark b = false :=
    Bytes.forall_byte (by decide +kernel)
  exact hall b hb

theorem Sign.any_fractionMark (h : Sign sign) : sign.any isFractionMark = false := by
  cases h <;> decide

theorem any_fractionMark_digits (h : digits.all Bytes.isDigit = true) :
    digits.any isFractionMark = false := by
  rw [List.any_eq_false]
  intro b hb
  rw [not_fractionMark (List.all_eq_true.mp h b hb)]
  simp

theorem Numeral.integral (h : Numeral t) (hmark : t.any isFractionMark = false) :
    ∃ sign digits, Sign sign ∧ Digits digits ∧ t = sign ++ digits := by
  obtain ⟨sign, mantissa, exponent, hsign, hmantissa, hexponent, rfl⟩ := h
  rw [List.any_append, List.any_append, Bool.or_eq_false_iff, Bool.or_eq_false_iff] at hmark
  obtain ⟨⟨_, hpoint⟩, hletter⟩ := hmark
  cases hexponent with
  | none =>
    cases hmantissa with
    | whole hdigits => exact ⟨sign, mantissa, hsign, hdigits, List.append_nil _⟩
    | point => simp [isFractionMark] at hpoint
  | some he =>
    rw [List.any_cons, Bool.or_eq_false_iff] at hletter
    rcases he with rfl | rfl <;> exact absurd hletter.1 (by decide)

theorem readExponent?_eq {e : UInt8} (he : e = Bytes.ascii 'e' ∨ e = Bytes.ascii 'E')
    (hsign : Sign sign) (hdigits : Digits digits) :
    Decimal.readExponent? (e :: (sign ++ digits)) = some (signedValue sign digits) := by
  have hmark : (e = Bytes.ascii 'e' || e = Bytes.ascii 'E') = true := by simpa using he
  unfold Decimal.readExponent?
  dsimp only
  rw [if_pos hmark]
  exact integer?_eq hsign hdigits

theorem readExponent?_isSome {exponent : Bytes} (h : Exponent exponent) :
    ∃ e, Decimal.readExponent? exponent = some e := by
  cases h with
  | none => exact ⟨0, rfl⟩
  | some he hsign hdigits => exact ⟨_, readExponent?_eq he hsign hdigits⟩

/-- A mantissa, its digits without the point, and how many of them stand behind the point. -/
inductive Pointed : Bytes → Bytes → Nat → Prop where
  | whole {digits : Bytes} (h : Digits digits) : Pointed digits digits 0
  | point {whole part : Bytes} (hwhole : whole.all Bytes.isDigit = true) (hpart : Digits part) :
      Pointed (whole ++ Bytes.ascii '.' :: part) (whole ++ part) part.length

theorem Mantissa.exists_pointed {mantissa : Bytes} (h : Mantissa mantissa) :
    ∃ digits places, Pointed mantissa digits places := by
  cases h with
  | whole hdigits => exact ⟨_, _, .whole hdigits⟩
  | point hwhole hpart => exact ⟨_, _, .point hwhole hpart⟩

theorem Pointed.mantissa {mantissa : Bytes} {places : Nat} (h : Pointed mantissa digits places) :
    Mantissa mantissa := by
  cases h with
  | whole hdigits => exact .whole hdigits
  | point hwhole hpart => exact .point hwhole hpart

/-- A numeral is read as its digits and the place of the last one. -/
theorem read?_eq {mantissa exponent : Bytes} {places : Nat} {e : Int} (hsign : Sign sign)
    (hmantissa : Pointed mantissa digits places) (hexponent : Exponent exponent)
    (he : Decimal.readExponent? exponent = some e) :
    Decimal.Numeral.read? (sign ++ mantissa ++ exponent) =
      some ⟨decide (sign = [Bytes.ascii '-']), digits, e - places⟩ := by
  have hhead : HeadNot continuesMantissa exponent := by
    simpa using hexponent.headNot_mantissa headNot_nil
  have hdigit := headNot_mono hhead fun b hb => (Bool.or_eq_false_iff.mp hb).1
  have hsplit : Decimal.splitSign (sign ++ mantissa ++ exponent) =
      (decide (sign = [Bytes.ascii '-']), mantissa ++ exponent) := by
    rw [List.append_assoc]
    exact splitSign_eq hsign (hmantissa.mantissa.headNot_sign exponent)
  unfold Decimal.Numeral.read?
  rw [hsplit]
  dsimp only
  cases hmantissa with
  | whole hdigits =>
    obtain ⟨htake, hdrop⟩ := takeWhile_run hdigits.2 hdigit
    rw [htake, hdrop]
    have hne : digits.isEmpty = false := by simpa using hdigits.1
    split
    · exact absurd (headNot_cons.mp hhead) (by decide)
    · simp [hne, he]
  | @point whole part hwhole hpart =>
    have hpoint : HeadNot Bytes.isDigit (Bytes.ascii '.' :: (part ++ exponent)) :=
      headNot_cons.mpr (by decide)
    obtain ⟨htake, hdrop⟩ := takeWhile_run hwhole hpoint
    obtain ⟨htake', hdrop'⟩ := takeWhile_run hpart.2 hdigit
    have hne : part.isEmpty = false := by simpa using hpart.1
    rw [List.append_assoc, List.cons_append, htake, hdrop]
    have hdot : Bytes.ascii '.' = 46 := rfl
    simp [hdot, htake', hdrop', hne, he]

/-- A numeral is never malformed: the only thing that can be wrong with it is its size. -/
theorem Numeral.not_malformed (h : Numeral t) : Decimal.readFloat t ≠ .error .malformed := by
  obtain ⟨sign, mantissa, exponent, hsign, hmantissa, hexponent, rfl⟩ := h
  obtain ⟨e, he⟩ := readExponent?_isSome hexponent
  obtain ⟨digits, places, hpointed⟩ := hmantissa.exists_pointed
  unfold Decimal.readFloat
  rw [read?_eq hsign hpointed hexponent he]
  dsimp only
  split <;> simp

theorem digit_toUInt8 {n : Nat} (h : n < 10) :
    Bytes.isDigit (48 + n).toUInt8 = true ∧ ((48 + n).toUInt8.toNat - 48) = n := by
  have hall : ∀ n, n < 10 → Bytes.isDigit (48 + n).toUInt8 = true ∧
      ((48 + n).toUInt8.toNat - 48) = n := by decide
  exact hall n h

theorem digits_ofNat (n : Nat) : Digits (Bytes.ofNat n) := by
  fun_induction Bytes.ofNat n with
  | case1 n h =>
    constructor
    · apply List.cons_ne_nil
    · rw [List.all_cons, (digit_toUInt8 h).1]
      rfl
  | case2 n h ih =>
    have hdigit := digit_toUInt8 (n := n % 10) (by omega)
    constructor
    · simp
    · rw [List.all_append, ih.2, List.all_cons, hdigit.1]
      rfl

theorem digitsValue_ofNat (n : Nat) : Bytes.digitsValue (Bytes.ofNat n) = n := by
  fun_induction Bytes.ofNat n with
  | case1 n h =>
    have hdigit := (digit_toUInt8 h).2
    rw [Bytes.digitsValue, List.foldl_cons, List.foldl_nil]
    omega
  | case2 n h ih =>
    have hdigit := (digit_toUInt8 (n := n % 10) (by omega)).2
    unfold Bytes.digitsValue at ih ⊢
    rw [List.foldl_append, ih, List.foldl_cons, List.foldl_nil]
    omega

/-- An integer is written as a sign and digits that denote it. -/
theorem exists_signed_ofInt (i : Int) :
    ∃ sign digits, Sign sign ∧ Digits digits ∧ Bytes.ofInt i = sign ++ digits ∧
      signedValue sign digits = i := by
  unfold Bytes.ofInt
  split
  · refine ⟨_, _, .minus, digits_ofNat i.natAbs, rfl, ?_⟩
    rw [signedValue, if_pos rfl, digitsValue_ofNat]
    omega
  · refine ⟨_, _, .none, digits_ofNat i.natAbs, rfl, ?_⟩
    rw [signedValue, if_neg (by simp), digitsValue_ofNat]
    omega

theorem integer?_ofInt (i : Int) : Decimal.integer? (Bytes.ofInt i) = some i := by
  obtain ⟨sign, digits, hsign, hdigits, heq, rfl⟩ := exists_signed_ofInt i
  rw [heq, integer?_eq hsign hdigits]

end Backtrack.Numerals
