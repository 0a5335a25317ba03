import Backtrack.Proofs.Json.Strings
import Backtrack.Proofs.Text.Characters

/-!
# Decoding strings

`Denotes` says what the items of a string stand for, without regard to how it is computed: a byte
for itself, a short escape for its character, and code units for characters in UTF-16, of which two
surrogates in the right order make one character and any other surrogate is U+FFFD.

Every text that the pattern of strings matches as a whole has such items, and decoding it yields
what they stand for. Nothing is said of texts that the pattern does not match.
-/

namespace Backtrack.Json

open Text

def shortEscapes : List (Char × UInt8) :=
  [('\x22', 0x22), ('\\', 0x5C), ('/', 0x2F), ('b', 0x08), ('f', 0x0C), ('n', 0x0A), ('r', 0x0D),
    ('t', 0x09)]

/-- The number that a code unit is written as, in hexadecimal digits. -/
def StringItem.number? : StringItem → Option Nat
  | unit a b c d _ => Bytes.numberIn? 16 [a, b, c, d]
  | _ => none

def IsHigh (n : Nat) : Prop := 0xD800 ≤ n ∧ n < 0xDC00

def IsLow (n : Nat) : Prop := 0xDC00 ≤ n ∧ n < 0xE000

/-- Some items stand for a text. -/
inductive Denotes : List StringItem → Bytes → Prop where
  | nil : Denotes [] []
  | plain {b : UInt8} {hb : isPlain b = true} {items : List StringItem} {t : Bytes}
      (h : Denotes items t) : Denotes (.plain b hb :: items) (b :: t)
  | short {letter : Char} {c : UInt8} {hc : shortEscape? (Bytes.ascii letter) = some c}
      {items : List StringItem} {t : Bytes} (hletter : (letter, c) ∈ shortEscapes)
      (h : Denotes items t) : Denotes (.short (Bytes.ascii letter) c hc :: items) (c :: t)
  | pair {i j : StringItem} {high low : Nat} {c : Char} {items : List StringItem} {t : Bytes}
      (hi : i.number? = some high) (hj : j.number? = some low) (hhigh : IsHigh high)
      (hlow : IsLow low) (hc : c.toNat = 0x10000 + (high - 0xD800) * 0x400 + (low - 0xDC00))
      (h : Denotes items t) : Denotes (i :: j :: items) (Utf8.encode c ++ t)
  | lone {i : StringItem} {n : Nat} {items : List StringItem} {t : Bytes}
      (hi : i.number? = some n) (hn : IsHigh n ∨ IsLow n)
      (hlone : IsHigh n → ∀ j rest low, items = j :: rest → j.number? = some low → ¬ IsLow low)
      (h : Denotes items t) : Denotes (i :: items) (Utf8.encode '\uFFFD' ++ t)
  | char {i : StringItem} {c : Char} {items : List StringItem} {t : Bytes}
      (hi : i.number? = some c.toNat) (h : Denotes items t) :
      Denotes (i :: items) (Utf8.encode c ++ t)

variable {items items' : List StringItem} {t u s : Bytes}

theorem hex_ascii {b : UInt8} (h : isHex b = true) : b.toNat < 128 := by
  have hall : ∀ b : UInt8, isHex b = true → b.toNat < 128 := Bytes.forall_byte (by decide +kernel)
  exact hall b h

theorem digit?_hex {b : UInt8} {n : Nat} (h : Bytes.hexValue? b = some n) :
    Bytes.digit? 16 b = some n := by
  rw [Bytes.digit?, h]
  exact if_pos (Bytes.hexValue?_lt h)

/-- The code unit of four digits is the number that they denote, and it has sixteen bits. -/
theorem number?_unit {a b c d : UInt8}
    (h : isHex a = true ∧ isHex b = true ∧ isHex c = true ∧ isHex d = true) :
    (StringItem.unit a b c d h).number? = some (codeUnit a b c d) ∧ codeUnit a b c d < 0x10000 := by
  obtain ⟨ha, hb, hc, hd⟩ := h
  obtain ⟨x, hx⟩ := Option.isSome_iff_exists.mp ha
  obtain ⟨y, hy⟩ := Option.isSome_iff_exists.mp hb
  obtain ⟨z, hz⟩ := Option.isSome_iff_exists.mp hc
  obtain ⟨w, hw⟩ := Option.isSome_iff_exists.mp hd
  have hnumber : Bytes.numberIn? 16 [a, b, c, d] = some (16 * (16 * (16 * x + y) + z) + w) := by
    simp [Bytes.numberIn?, digit?_hex hx, digit?_hex hy, digit?_hex hz, digit?_hex hw]
  have hvalue : codeUnit a b c d = 16 * (16 * (16 * x + y) + z) + w := by
    rw [codeUnit, hx, hy, hz, hw]
    dsimp only
    omega
  have hxlt := Bytes.hexValue?_lt hx
  have hylt := Bytes.hexValue?_lt hy
  have hzlt := Bytes.hexValue?_lt hz
  have hwlt := Bytes.hexValue?_lt hw
  rw [hvalue]
  exact ⟨hnumber, by omega⟩

theorem exists_unit {i : StringItem} {n : Nat} (h : i.number? = some n) :
    ∃ a b c d hunit, i = .unit a b c d hunit ∧ codeUnit a b c d = n := by
  cases i with
  | plain | short => cases h
  | unit a b c d hunit =>
    rw [(number?_unit hunit).1] at h
    exact ⟨a, b, c, d, hunit, rfl, Option.some.inj h⟩

theorem encodeNat_toNat (c : Char) : Utf8.encodeNat c.toNat = Utf8.encode c := by
  have hvalid : c.toNat.isValidChar := c.valid
  rw [Utf8.encodeNat, if_pos hvalid, Char.ofNat_toNat]

theorem encodeNat_surrogate {n : Nat} (h : IsHigh n ∨ IsLow n) :
    Utf8.encodeNat n = Utf8.encode '\uFFFD' := by
  have hinvalid : ¬ n.isValidChar := by
    unfold IsHigh IsLow at h
    unfold Nat.isValidChar
    omega
  rw [Utf8.encodeNat, if_neg hinvalid]
  rfl

theorem exists_char {n : Nat} (h : n.isValidChar) : ∃ c : Char, c.toNat = n := by
  refine ⟨Char.ofNat n, ?_⟩
  rw [Char.ofNat, dif_pos h]
  rfl

theorem pairSurrogates?_eq_some {high low n : Nat} : pairSurrogates? high low = some n ↔
    IsHigh high ∧ IsLow low ∧ n = 0x10000 + (high - 0xD800) * 0x400 + (low - 0xDC00) := by
  unfold pairSurrogates? IsHigh IsLow
  split
  · rename_i h
    simp only [Bool.and_eq_true, decide_eq_true_eq] at h
    rw [Option.some.injEq]
    constructor
    · intro hn
      omega
    · intro hn
      omega
  · rename_i h
    simp only [Bool.and_eq_true, decide_eq_true_eq] at h
    constructor
    · nofun
    · intro hn
      omega

theorem mem_shortEscapes {b c : UInt8} (h : shortEscape? b = some c) :
    ∃ letter, Bytes.ascii letter = b ∧ (letter, c) ∈ shortEscapes := by
  have hall : ∀ b : UInt8, ∀ c ∈ shortEscape? b,
      (shortEscapes.any fun e => Bytes.ascii e.1 = b && e.2 = c) = true :=
    Bytes.forall_byte (by decide +kernel)
  have hany := hall b c h
  rw [List.any_eq_true] at hany
  obtain ⟨⟨letter, c'⟩, hmem, heq⟩ := hany
  simp only [Bool.and_eq_true, decide_eq_true_eq] at heq
  obtain ⟨rfl, rfl⟩ := heq
  exact ⟨letter, rfl, hmem⟩

theorem shortEscape_ascii {b c : UInt8} (h : shortEscape? b = some c) :
    b.toNat < 128 ∧ c.toNat < 128 := by
  have hall : ∀ b : UInt8, ∀ c ∈ shortEscape? b, b.toNat < 128 ∧ c.toNat < 128 :=
    Bytes.forall_byte (by decide +kernel)
  exact hall b c h

/-- What items stand for is computed from them. -/
theorem Denotes.eq_text (h : Denotes items t) : t = StringItem.text items := by
  induction h with
  | nil => rfl
  | plain _ ih | short _ _ ih => exact congrArg (_ :: ·) ih
  | pair hi hj hhigh hlow hc _ ih =>
    obtain ⟨_, _, _, _, _, rfl, rfl⟩ := exists_unit hi
    obtain ⟨_, _, _, _, _, rfl, rfl⟩ := exists_unit hj
    rw [StringItem.text_pair (pairSurrogates?_eq_some.mpr ⟨hhigh, hlow, hc⟩), encodeNat_toNat, ih]
  | lone hi hn hlone _ ih =>
    obtain ⟨_, _, _, _, _, rfl, rfl⟩ := exists_unit hi
    rw [StringItem.text_unit, encodeNat_surrogate hn, ih]
    intro e f g i h' rest hrest
    refine Option.eq_none_iff_forall_ne_some.mpr fun n hpair => ?_
    obtain ⟨hhigh, hlow, _⟩ := pairSurrogates?_eq_some.mp hpair
    exact hlone hhigh _ _ _ hrest (number?_unit h').1 hlow
  | @char i c items t hi _ ih =>
    obtain ⟨_, _, _, _, _, rfl, hc⟩ := exists_unit hi
    rw [StringItem.text_unit, hc, encodeNat_toNat, ih]
    intro e f g i h' rest _
    rw [hc]
    refine Option.eq_none_iff_forall_ne_some.mpr fun n hpair => ?_
    obtain ⟨hhigh, _, _⟩ := pairSurrogates?_eq_some.mp hpair
    have hvalid : c.toNat.isValidChar := c.valid
    unfold IsHigh at hhigh
    unfold Nat.isValidChar at hvalid
    omega

/-- A code unit that does not form a pair with what follows stands for its character, or for U+FFFD
if it is a surrogate. -/
theorem Denotes.unit {a b c d : UInt8} {h}
    (hnext : ∀ e f g i h' rest, items = .unit e f g i h' :: rest →
      pairSurrogates? (codeUnit a b c d) (codeUnit e f g i) = none)
    (hrest : Denotes items t) :
    Denotes (.unit a b c d h :: items) (Utf8.encodeNat (codeUnit a b c d) ++ t) := by
  obtain ⟨hnumber, hlt⟩ := number?_unit h
  by_cases hsurrogate : IsHigh (codeUnit a b c d) ∨ IsLow (codeUnit a b c d)
  · rw [encodeNat_surrogate hsurrogate]
    refine .lone hnumber hsurrogate ?_ hrest
    intro hhigh j rest low hitems hj hlow
    obtain ⟨e, f, g, i, h', rfl, rfl⟩ := exists_unit hj
    have hpair := pairSurrogates?_eq_some.mpr ⟨hhigh, hlow, rfl⟩
    rw [hnext e f g i h' rest hitems] at hpair
    cases hpair
  · have hvalid : (codeUnit a b c d).isValidChar := by
      unfold IsHigh IsLow at hsurrogate
      unfold Nat.isValidChar
      omega
    obtain ⟨ch, hch⟩ := exists_char hvalid
    rw [← hch, encodeNat_toNat]
    exact .char (hch ▸ hnumber) hrest

theorem denotes_text (items : List StringItem) : Denotes items (StringItem.text items) := by
  fun_induction StringItem.text items with
  | case1 => exact .nil
  | case2 b hb items ih => exact .plain ih
  | case3 b c hc items ih =>
    obtain ⟨letter, rfl, hletter⟩ := mem_shortEscapes hc
    exact .short hletter ih
  | case4 a b c d h e f g i h' items n hpair ih =>
    obtain ⟨hhigh, hlow, hn⟩ := pairSurrogates?_eq_some.mp hpair
    have hvalid : n.isValidChar := by
      unfold IsHigh at hhigh
      unfold IsLow at hlow
      unfold Nat.isValidChar
      omega
    obtain ⟨ch, rfl⟩ := exists_char hvalid
    rw [encodeNat_toNat]
    exact .pair (number?_unit h).1 (number?_unit h').1 hhigh hlow hn ih
  | case5 a b c d h e f g i h' items hpair ih =>
    refine .unit ?_ ih
    rintro e' f' g' i' _ rest hrest
    cases hrest
    exact hpair
  | case6 a b c d h items hlast ih =>
    exact .unit (fun e f g i h' rest hrest => absurd hrest (hlast e f g i h' rest)) ih

theorem denotes_iff : Denotes items t ↔ t = StringItem.text items := by
  constructor
  · exact Denotes.eq_text
  · rintro rfl
    exact denotes_text items

/-- An item can be told from the way it is written, whatever follows it. -/
theorem bytes_append_inj {i j : StringItem} (h : i.bytes ++ t = j.bytes ++ u) : i = j ∧ t = u := by
  have hplain : isPlain 92 ≠ true := by decide
  have hshort (c : UInt8) : shortEscape? 117 ≠ some c := nofun
  cases i with
  | plain b hb =>
    cases j with
    | plain =>
      cases h
      exact ⟨rfl, rfl⟩
    | short | unit =>
      cases h
      exact absurd hb hplain
  | short b c hb =>
    cases j with
    | plain _ hb' =>
      cases h
      exact absurd hb' hplain
    | short _ _ hb' =>
      cases h
      obtain rfl := Option.some.inj (hb.symm.trans hb')
      exact ⟨rfl, rfl⟩
    | unit =>
      cases h
      exact absurd hb (hshort c)
  | unit =>
    cases j with
    | plain _ hb' =>
      cases h
      exact absurd hb' hplain
    | short _ c hb' =>
      cases h
      exact absurd hb' (hshort c)
    | unit =>
      cases h
      exact ⟨rfl, rfl⟩

theorem bytes_ne_nil (i : StringItem) : i.bytes ≠ [] := by cases i <;> nofun

theorem flatMap_bytes_inj (h : items.flatMap StringItem.bytes = items'.flatMap StringItem.bytes) :
    items = items' := by
  induction items generalizing items' with
  | nil =>
    cases items' with
    | nil => rfl
    | cons j items' => exact absurd (List.append_eq_nil_iff.mp h.symm).1 (bytes_ne_nil j)
  | cons i items ih =>
    cases items' with
    | nil => exact absurd (List.append_eq_nil_iff.mp h).1 (bytes_ne_nil i)
    | cons j items' =>
      rw [List.flatMap_cons, List.flatMap_cons] at h
      obtain ⟨rfl, hrest⟩ := bytes_append_inj h
      rw [ih hrest]

/-- An escape does not break up a character. -/
theorem isValid_escape {i : StringItem} (hi : ∀ b hb, i ≠ .plain b hb)
    (h : Utf8.isValid (t ++ (i.bytes ++ u)) = true) :
    Utf8.isValid t = true ∧ Utf8.isValid u = true := by
  cases i with
  | plain b hb => exact absurd rfl (hi b hb)
  | short b c hb =>
    have h : Utf8.isValid (t ++ 92 :: b :: u) = true := h
    obtain ⟨ht, hu⟩ := Utf8.isValid_of_append (headNot_cons.mpr (by decide)) h
    rw [Utf8.isValid_ascii_cons (by decide), Utf8.isValid_ascii_cons (shortEscape_ascii hb).1] at hu
    exact ⟨ht, hu⟩
  | unit a b c d hunit =>
    obtain ⟨ha, hb, hc, hd⟩ := hunit
    have h : Utf8.isValid (t ++ 92 :: 117 :: a :: b :: c :: d :: u) = true := h
    obtain ⟨ht, hu⟩ := Utf8.isValid_of_append (headNot_cons.mpr (by decide)) h
    rw [Utf8.isValid_ascii_cons (by decide), Utf8.isValid_ascii_cons (by decide),
      Utf8.isValid_ascii_cons (hex_ascii ha), Utf8.isValid_ascii_cons (hex_ascii hb),
      Utf8.isValid_ascii_cons (hex_ascii hc), Utf8.isValid_ascii_cons (hex_ascii hd)] at hu
    exact ⟨ht, hu⟩

theorem ne_plain_of_number? {i : StringItem} {n : Nat} (h : i.number? = some n) (b : UInt8)
    (hb : isPlain b = true) : i ≠ .plain b hb := by
  rintro rfl
  cases h

/-- What items stand for is well-formed if the items are. A character may be made of several bytes
that stand for themselves, so those read before come along. -/
theorem Denotes.isValid (h : Denotes items t) (front : Bytes)
    (hvalid : Utf8.isValid (front ++ items.flatMap StringItem.bytes) = true) :
    Utf8.isValid (front ++ t) = true := by
  induction h generalizing front with
  | nil => exact hvalid
  | @plain b hb items t _ ih =>
    rw [List.flatMap_cons, StringItem.bytes, ← List.append_assoc] at hvalid
    have hrest := ih _ hvalid
    rwa [List.append_assoc, List.singleton_append] at hrest
  | @short letter c hc items t _ _ ih =>
    rw [List.flatMap_cons] at hvalid
    obtain ⟨hfront, hrest⟩ := isValid_escape (fun _ _ h => by cases h) hvalid
    apply Utf8.isValid_append hfront
    rw [Utf8.isValid_ascii_cons (shortEscape_ascii hc).2]
    exact ih [] hrest
  | @pair i j _ _ c items t hi hj _ _ _ _ ih =>
    rw [List.flatMap_cons, List.flatMap_cons] at hvalid
    obtain ⟨hfront, hrest⟩ := isValid_escape (ne_plain_of_number? hi) hvalid
    obtain ⟨_, hrest⟩ := isValid_escape (t := []) (ne_plain_of_number? hj) hrest
    exact Utf8.isValid_append hfront (Utf8.isValid_append (Utf8.isValid_encode c) (ih [] hrest))
  | lone hi _ _ _ ih | char hi _ ih =>
    rw [List.flatMap_cons] at hvalid
    obtain ⟨hfront, hrest⟩ := isValid_escape (ne_plain_of_number? hi) hvalid
    exact Utf8.isValid_append hfront (Utf8.isValid_append (Utf8.isValid_encode _) (ih [] hrest))

theorem quoted_inj (h : quoted items = quoted items') : items = items' :=
  flatMap_bytes_inj (List.append_cancel_right (List.cons.inj h).2)

/-- The pattern of strings matches a text as a whole if it is made of items in quotes. -/
theorem findEnd?_string :
    stringPattern.findEnd? s.toArray 0 = some s.length ↔ ∃ items, s = quoted items := by
  have hplace : placeOf s.toArray s = 0 := placeOf_toList
  rw [← hplace, Regex.findEnd?_eq rfl]
  constructor
  · intro h
    obtain ⟨u, hu, hend⟩ := Option.map_eq_some_iff.mp h
    obtain ⟨_, token, v, ⟨items, _, rfl⟩, hs, hsome⟩ := of_tries_string List.suffix_rfl hu
    obtain rfl := Option.some.inj hsome
    -- The match ends where the text does, so nothing is left behind the closing quote.
    have hsuffix : v <:+ s.toArray.toList := ⟨_, hs.symm⟩
    have hlength := placeOf_add_length hsuffix
    obtain rfl : v = [] := by
      apply List.length_eq_zero_iff.mp
      rw [List.size_toArray] at hlength
      omega
    exact ⟨items, hs.trans (List.append_nil _)⟩
  · rintro ⟨items, rfl⟩
    have htoken : quoted items ++ [] <:+ (quoted items).toArray.toList := by simp
    have htries := tries_string_all htoken ⟨items, rfl, rfl⟩ (k := some) rfl
    rw [List.append_nil] at htries
    have hend : placeOf (quoted items).toArray [] = (quoted items).length := by simp [placeOf]
    rw [htries]
    exact congrArg some hend

/-- Every text that the pattern of strings matches as a whole is made of items in quotes, in one way
only. What the items stand for is determined, and decoding yields it, whether the loop is run or
not; if the text is well-formed UTF-8, so is the result. -/
theorem decode_string (s : Bytes) (h : stringPattern.findEnd? s.toArray 0 = some s.length) :
    ∃ items t, (∀ items', s = quoted items' ↔ items' = items) ∧ (∀ t', Denotes items t' ↔ t' = t) ∧
      decode s = .ok t ∧ decodeInside (s.drop 1).dropLast = .ok t ∧
      (Utf8.isValid s = true → Utf8.isValid t = true) := by
  obtain ⟨items, rfl⟩ := findEnd?_string.mp h
  refine ⟨items, StringItem.text items, fun items' => ?_, fun t' => denotes_iff, ?_,
    decodeInside_quoted items, ?_⟩
  · constructor
    · exact fun heq => (quoted_inj heq).symm
    · rintro rfl
      rfl
  · exact decode_quoted items
  · intro hvalid
    rw [quoted, List.cons_append, Utf8.isValid_ascii_cons (by decide)] at hvalid
    obtain ⟨hvalid, -⟩ := Utf8.isValid_of_append (headNot_cons.mpr (by decide)) hvalid
    exact (denotes_text items).isValid [] hvalid

/-- Of two high surrogates and two low ones behind them, only those in the middle belong
together. -/
theorem decode_string_surrogates : ∃ items, Denotes items "\uFFFD😀\uFFFD\nAé" ∧
    decode "\"\\ud83d\\ud83d\\ude00\\ude00\\n\\u0041é\"" = .ok "\uFFFD😀\uFFFD\nAé" := by
  have htoken : ("\"\\ud83d\\ud83d\\ude00\\ude00\\n\\u0041é\"" : Bytes) =
      quoted [.unit 0x64 0x38 0x33 0x64 (by decide), .unit 0x64 0x38 0x33 0x64 (by decide),
        .unit 0x64 0x65 0x30 0x30 (by decide), .unit 0x64 0x65 0x30 0x30 (by decide),
        .short 0x6E 0x0A rfl, .unit 0x30 0x30 0x34 0x31 (by decide), .plain 0xC3 rfl,
        .plain 0xA9 rfl] := rfl
  obtain ⟨items, t, _, hdenotes, hdecode, _⟩ := decode_string _ (findEnd?_string.mpr ⟨_, htoken⟩)
  have hrun : decode "\"\\ud83d\\ud83d\\ude00\\ude00\\n\\u0041é\"" =
      .ok "\uFFFD😀\uFFFD\nAé" := by rfl
  exact ⟨items, (hdenotes _).mpr (Except.ok.inj (hrun.symm.trans hdecode)), hrun⟩

end Backtrack.Json
