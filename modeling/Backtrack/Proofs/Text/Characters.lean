import Backtrack.Proofs.Text.Blank
import Backtrack.Proofs.Text.Utf8

/-!
# Texts as lists of characters

A character is read back from its UTF-8 bytes, whatever follows them, and the bytes of a well-formed
character are those that it is written with. So a well-formed text and the list of its characters
determine each other.
-/

namespace Backtrack.Utf8

open Text

theorem toNat_toUInt8 {n : Nat} (h : n < 256) : n.toUInt8.toNat = n := by
  simp only [Nat.toUInt8, UInt8.toNat_ofNat']
  omega

theorem toUInt8_eq {n : Nat} {b : UInt8} (h : n = b.toNat) : n.toUInt8 = b := by
  rw [h]
  exact UInt8.ofNat_toNat

theorem continuation?_toUInt8 {x : Nat} (h : x < 64) :
    continuation? (128 + x).toUInt8 = some x := by
  have hbyte := toNat_toUInt8 (n := 128 + x) (by omega)
  have hrange : (128 ≤ 128 + x && 128 + x < 192) = true := by
    simp
    omega
  rw [continuation?, hbyte, if_pos hrange, Nat.add_sub_cancel_left]

theorem continuation?_eq_some {b : UInt8} {x : Nat} (h : continuation? b = some x) :
    b.toNat = 128 + x ∧ x < 64 := by
  unfold continuation? at h
  split at h
  · rename_i hrange
    simp only [Bool.and_eq_true, decide_eq_true_eq] at hrange
    have hx := Option.some.inj h
    omega
  · cases h

theorem scalar?_toNat (c : Char) {least : Nat} (size : Nat) (h : least ≤ c.toNat) :
    scalar? least size c.toNat = some (c, size) := by
  have hvalid : c.toNat.isValidChar := c.valid
  rw [scalar?, if_pos ⟨h, hvalid⟩, Char.ofNat_toNat]

theorem toNat_of_scalar? {least size value n : Nat} {c : Char}
    (h : scalar? least size value = some (c, n)) : c.toNat = value := by
  unfold scalar? at h
  split at h
  · rename_i hvalid
    cases h
    rw [Char.ofNat, dif_pos hvalid.2]
    rfl
  · cases h

theorem toNat_lt (c : Char) : c.toNat < 0x110000 := by
  have hvalid : c.toNat.isValidChar := c.valid
  unfold Nat.isValidChar at hvalid
  omega

/-- A character is read back from its bytes. -/
theorem strict?_encode (c : Char) (rest : Bytes) :
    strict? (encode c ++ rest) = some (c, (encode c).length) := by
  have hmax := toNat_lt c
  unfold encode
  dsimp only
  by_cases h₁ : c.toNat < 0x80
  · have hb := toNat_toUInt8 (n := c.toNat) (by omega)
    rw [if_pos h₁, List.singleton_append, strict?_ascii (by omega), hb, Char.ofNat_toNat]
    rfl
  rw [if_neg h₁]
  by_cases h₂ : c.toNat < 0x800
  · have hb := toNat_toUInt8 (n := 192 + c.toNat / 64) (by omega)
    have hx := continuation?_toUInt8 (x := c.toNat % 64) (by omega)
    have hvalue : (192 + c.toNat / 64 - 192) * 64 + c.toNat % 64 = c.toNat := by omega
    rw [if_pos h₂, List.cons_append, strict?]
    simp only [hb]
    rw [if_neg (by omega), if_neg (by omega), if_pos (by omega)]
    simp only [List.cons_append, List.nil_append, List.getElem?_cons_zero,
      Option.bind_eq_bind, Option.bind_some, hx, hvalue, scalar?_toNat c 2 (Nat.le_of_not_lt h₁)]
    rfl
  rw [if_neg h₂]
  by_cases h₃ : c.toNat < 0x10000
  · have hb := toNat_toUInt8 (n := 224 + c.toNat / 4096) (by omega)
    have hx := continuation?_toUInt8 (x := c.toNat / 64 % 64) (by omega)
    have hy := continuation?_toUInt8 (x := c.toNat % 64) (by omega)
    have hvalue : ((224 + c.toNat / 4096 - 224) * 64 + c.toNat / 64 % 64) * 64 + c.toNat % 64 =
        c.toNat := by omega
    rw [if_pos h₃, List.cons_append, strict?]
    simp only [hb]
    rw [if_neg (by omega), if_neg (by omega), if_neg (by omega), if_pos (by omega)]
    simp only [List.cons_append, List.nil_append, List.getElem?_cons_zero, List.getElem?_cons_succ,
      Option.bind_eq_bind, Option.bind_some, hx, hy, hvalue,
      scalar?_toNat c 3 (Nat.le_of_not_lt h₂)]
    rfl
  · have hb := toNat_toUInt8 (n := 240 + c.toNat / 262144) (by omega)
    have hx := continuation?_toUInt8 (x := c.toNat / 4096 % 64) (by omega)
    have hy := continuation?_toUInt8 (x := c.toNat / 64 % 64) (by omega)
    have hz := continuation?_toUInt8 (x := c.toNat % 64) (by omega)
    have hvalue : (((240 + c.toNat / 262144 - 240) * 64 + c.toNat / 4096 % 64) * 64 +
        c.toNat / 64 % 64) * 64 + c.toNat % 64 = c.toNat := by omega
    rw [if_neg h₃, List.cons_append, strict?]
    simp only [hb]
    rw [if_neg (by omega), if_neg (by omega), if_neg (by omega), if_neg (by omega),
      if_pos (by omega)]
    simp only [List.cons_append, List.nil_append, List.getElem?_cons_zero, List.getElem?_cons_succ,
      Option.bind_eq_bind, Option.bind_some, hx, hy, hz, hvalue,
      scalar?_toNat c 4 (Nat.le_of_not_lt h₃)]
    rfl

theorem exists_of_continuation {rest : Bytes} {i x : Nat}
    (h : (rest[i]? >>= continuation?) = some x) :
    ∃ b, rest[i]? = some b ∧ b.toNat = 128 + x ∧ x < 64 := by
  obtain ⟨b, hb, hx⟩ := Option.bind_eq_some_iff.mp h
  exact ⟨b, hb, continuation?_eq_some hx⟩

/-- The bytes of a well-formed character are those that it is written with. -/
theorem take_of_strict? {text : Bytes} {c : Char} {n : Nat} (h : strict? text = some (c, n)) :
    text.take n = encode c := by
  rcases text with _ | ⟨b, rest⟩
  · cases h
  unfold encode
  dsimp only
  simp only [strict?] at h
  split at h
  · rename_i hb
    cases h
    have hc : (Char.ofNat b.toNat).toNat = b.toNat := by
      rw [Char.ofNat, dif_pos (.inl (by omega))]
      rfl
    rw [hc, if_pos hb, toUInt8_eq rfl]
    rfl
  rename_i hb
  split at h
  · cases h
  rename_i hb'
  split at h
  · obtain ⟨x, hx, h⟩ := Option.bind_eq_some_iff.mp h
    obtain ⟨rfl, hleast⟩ := of_scalar? h
    have hc := toNat_of_scalar? h
    obtain ⟨d, hd, hdx, hx⟩ := exists_of_continuation hx
    rcases rest with _ | ⟨d', rest⟩
    · cases hd
    cases hd
    rw [if_neg (by omega), if_pos (by omega), toUInt8_eq (b := b) (by omega),
      toUInt8_eq (b := d) (by omega)]
    rfl
  split at h
  · obtain ⟨x, hx, h⟩ := Option.bind_eq_some_iff.mp h
    obtain ⟨y, hy, h⟩ := Option.bind_eq_some_iff.mp h
    obtain ⟨rfl, hleast⟩ := of_scalar? h
    have hc := toNat_of_scalar? h
    obtain ⟨d, hd, hdx, hx⟩ := exists_of_continuation hx
    obtain ⟨e, he, hey, hy⟩ := exists_of_continuation hy
    rcases rest with _ | ⟨d', _ | ⟨e', rest⟩⟩
    · cases hd
    · cases he
    cases hd
    cases he
    rw [if_neg (by omega), if_neg (by omega), if_pos (by omega), toUInt8_eq (b := b) (by omega),
      toUInt8_eq (b := d) (by omega), toUInt8_eq (b := e) (by omega)]
    rfl
  split at h
  · obtain ⟨x, hx, h⟩ := Option.bind_eq_some_iff.mp h
    obtain ⟨y, hy, h⟩ := Option.bind_eq_some_iff.mp h
    obtain ⟨z, hz, h⟩ := Option.bind_eq_some_iff.mp h
    obtain ⟨rfl, hleast⟩ := of_scalar? h
    have hc := toNat_of_scalar? h
    obtain ⟨d, hd, hdx, hx⟩ := exists_of_continuation hx
    obtain ⟨e, he, hey, hy⟩ := exists_of_continuation hy
    obtain ⟨f, hf, hfz, hz⟩ := exists_of_continuation hz
    rcases rest with _ | ⟨d', _ | ⟨e', _ | ⟨f', rest⟩⟩⟩
    · cases hd
    · cases he
    · cases hf
    cases hd
    cases he
    cases hf
    rw [if_neg (by omega), if_neg (by omega), if_neg (by omega), toUInt8_eq (b := b) (by omega),
      toUInt8_eq (b := d) (by omega), toUInt8_eq (b := e) (by omega),
      toUInt8_eq (b := f) (by omega)]
    rfl
  · cases h

def isWide (b : UInt8) : Bool := 128 ≤ b.toNat

theorem strict?_append {t u : Bytes} {c : Char} {n : Nat} (h : strict? t = some (c, n)) :
    strict? (t ++ u) = some (c, n) := by
  obtain ⟨_, hwidth⟩ := strict?_width h
  have htake := take_of_strict? h
  have hlength : (encode c).length = n := by
    rw [← htake, List.length_take]
    omega
  have hsplit : t ++ u = encode c ++ (t.drop n ++ u) := by
    rw [← List.append_assoc, ← htake, List.take_append_drop]
  rw [hsplit, strict?_encode, hlength]

/-- A character ends where a text ends that no byte outside ASCII follows. -/
theorem strict?_of_append {t u : Bytes} {c : Char} {n : Nat} (ht : t ≠ []) (hu : HeadNot isWide u)
    (h : strict? (t ++ u) = some (c, n)) : strict? t = some (c, n) := by
  obtain ⟨b, rest, rfl⟩ := List.exists_cons_of_ne_nil ht
  have hwidth : n ≤ (b :: rest).length := by
    rw [List.cons_append] at h
    rcases strict?_cases h with ⟨_, _, rfl⟩ | ⟨_, _, more, rfl, hmore, hwide⟩
    · simp
    · have hmore : more ≤ rest.length := by
        apply length_le_of_take hmore ?_ hu
        intro d hd
        exact decide_eq_true (hwide d hd)
      exact Nat.succ_le_succ hmore
  have htake := take_of_strict? h
  rw [List.take_append_of_le_length hwidth] at htake
  have hlength : (encode c).length = n := by
    rw [← htake, List.length_take]
    omega
  rw [← List.take_append_drop n (b :: rest), htake, strict?_encode, hlength]

theorem decode?_append {t u : Bytes} (ht : t ≠ []) (hu : HeadNot isWide u) :
    decode? (t ++ u) = decode? t := by
  have hstrict : strict? (t ++ u) = strict? t := by
    cases h : strict? t with
    | some r => exact strict?_append h
    | none =>
      cases h' : strict? (t ++ u) with
      | none => rfl
      | some r =>
        rw [strict?_of_append ht hu h'] at h
        cases h
  obtain ⟨b, rest, rfl⟩ := List.exists_cons_of_ne_nil ht
  simp only [List.cons_append, decode?] at hstrict ⊢
  rw [hstrict]

theorem decode?_of_strict? {t : Bytes} {c : Char} {n : Nat} (h : strict? t = some (c, n)) :
    decode? t = some (c, n) := by
  rcases t with _ | ⟨b, rest⟩
  · cases h
  simp only [decode?]
  rw [h]
  rfl

theorem decode?_of_stray {b : UInt8} {rest : Bytes} (h : strict? (b :: rest) = none) :
    decode? (b :: rest) = some (replacement, 1) := by
  simp only [decode?]
  rw [h]
  rfl

theorem encode_ne_nil (c : Char) : encode c ≠ [] := by
  unfold encode
  dsimp only
  split
  · nofun
  split
  · nofun
  split <;> nofun

theorem length_encode_le (c : Char) : (encode c).length ≤ 4 := by
  unfold encode
  dsimp only
  split
  · simp
  · split
    · simp
    · split <;> simp

/-- Four bytes decide on a character. -/
theorem decode?_take (t : Bytes) : decode? (t.take 4) = decode? t := by
  have hstrict : strict? (t.take 4) = strict? t := by
    cases h : strict? (t.take 4) with
    | some r =>
      have happend := strict?_append (u := t.drop 4) h
      rw [List.take_append_drop] at happend
      exact happend.symm
    | none =>
      cases h' : strict? t with
      | none => rfl
      | some r =>
        obtain ⟨c, n⟩ := r
        have hwidth := strict?_width h'
        have htake := take_of_strict? h'
        have hlength := congrArg List.length htake
        have hle := length_encode_le c
        rw [List.length_take] at hlength
        have hsplit : t.take 4 = encode c ++ (t.take 4).drop n := by
          have h := List.take_append_drop n (t.take 4)
          rw [List.take_take, Nat.min_eq_left (by omega), htake] at h
          exact h.symm
        rw [hsplit, strict?_encode] at h
        cases h
  rcases t with _ | ⟨b, rest⟩
  · rfl
  · simp only [List.take_succ_cons, decode?] at hstrict ⊢
    rw [hstrict]

/-- A character is the same without what follows it. -/
theorem decode?_take_width {t : Bytes} {c : Char} {n : Nat} (h : decode? t = some (c, n)) :
    decode? (t.take n) = some (c, (t.take n).length) := by
  obtain ⟨hpos, hle⟩ := decode?_width h
  rcases t with _ | ⟨b, rest⟩
  · cases h
  simp only [decode?, Option.some.injEq] at h
  cases hstrict : strict? (b :: rest) with
  | some r =>
    rw [hstrict] at h
    cases h
    have hencode := strict?_encode c []
    rw [List.append_nil] at hencode
    rw [take_of_strict? hstrict]
    obtain ⟨d, more, hcons⟩ : ∃ d more, encode c = d :: more := by
      apply List.exists_cons_of_ne_nil
      intro hnil
      rw [hnil] at hencode
      cases hencode
    rw [hcons] at hencode ⊢
    simp only [decode?]
    rw [hencode]
    rfl
  | none =>
    rw [hstrict] at h
    cases h
    have hstray : strict? [b] = none := by
      cases hb : strict? [b] with
      | none => rfl
      | some r =>
        have hrest := strict?_append (u := rest) hb
        rw [List.singleton_append, hstrict] at hrest
        cases hrest
    rw [List.take_succ_cons, List.take_zero]
    simp only [decode?]
    rw [hstray]
    rfl

theorem decode?_ascii {b : UInt8} (hb : b.toNat < 128) (rest : Bytes) :
    decode? (b :: rest) = some (Char.ofNat b.toNat, 1) := by
  simp only [decode?]
  rw [strict?_ascii hb]
  rfl

/-- A character is one byte of ASCII, or neither it nor any of its bytes is in ASCII. -/
theorem decode?_cases {t : Bytes} {c : Char} {n : Nat} (h : decode? t = some (c, n)) :
    (∃ b rest, t = b :: rest ∧ b.toNat < 128 ∧ c = Char.ofNat b.toNat ∧ n = 1) ∨
      (128 ≤ c.toNat ∧ ∀ x ∈ t.take n, 128 ≤ x.toNat) := by
  rcases t with _ | ⟨b, rest⟩
  · cases h
  rcases Nat.lt_or_ge b.toNat 128 with hb | hb
  · rw [decode?_ascii hb] at h
    cases h
    exact .inl ⟨b, rest, rfl, hb, rfl, rfl⟩
  · obtain ⟨d, m, hd, hwide, hall⟩ := decode?_wide hb rest
    rw [hd] at h
    cases h
    exact .inr ⟨hwide, hall⟩

/-- An ASCII character stands at the start of a text as its own byte. -/
theorem cons_of_decode? {t : Bytes} {c : Char} {n : Nat} (h : decode? t = some (c, n))
    (hc : c.toNat < 128) : t = Bytes.ascii c :: t.drop n := by
  rcases decode?_cases h with ⟨b, rest, rfl, hb, rfl, rfl⟩ | ⟨hwide, _⟩
  · have hchar : (Char.ofNat b.toNat).toNat = b.toNat := by
      rw [Char.ofNat, dif_pos (.inl (by omega))]
      rfl
    rw [Bytes.ascii, toUInt8_eq hchar]
    rfl
  · omega

theorem exists_decode? {t : Bytes} (h : t ≠ []) : ∃ c n, decode? t = some (c, n) := by
  obtain ⟨b, rest, rfl⟩ := List.exists_cons_of_ne_nil h
  simp only [decode?]
  exact ⟨_, _, rfl⟩

theorem itemsFrom_eq (skip : Nat) (text : Bytes) :
    itemsFrom skip text = items (text.drop skip) := by
  induction skip generalizing text with
  | zero => rfl
  | succ skip ih =>
    cases text with
    | nil => rfl
    | cons b rest => exact ih rest

theorem items_of_strict? {text : Bytes} {c : Char} {n : Nat} (h : strict? text = some (c, n)) :
    items text = ⟨c, true, encode c⟩ :: items (text.drop n) := by
  rcases text with _ | ⟨b, rest⟩
  · cases h
  obtain ⟨hpos, _⟩ := strict?_width h
  obtain ⟨n, rfl⟩ : ∃ m, n = m + 1 := ⟨n - 1, by omega⟩
  rw [items, itemsFrom, h]
  dsimp only
  rw [itemsFrom_eq, take_of_strict? h]
  rfl

theorem items_of_stray {b : UInt8} {rest : Bytes} (h : strict? (b :: rest) = none) :
    items (b :: rest) = ⟨replacement, false, [b]⟩ :: items rest := by
  rw [items, itemsFrom, h]
  rfl

/-- What holds of the empty text, and of a text if it holds behind its first character, holds of all
texts. -/
theorem chars_induction {P : Bytes → Prop} (nil : P [])
    (char : ∀ text c n, strict? text = some (c, n) → P (text.drop n) → P text)
    (stray : ∀ b rest, strict? (b :: rest) = none → P rest → P (b :: rest)) (text : Bytes) :
    P text := by
  suffices h : ∀ n, ∀ text : Bytes, text.length ≤ n → P text from h _ text (Nat.le_refl _)
  intro n
  induction n with
  | zero =>
    intro text htext
    obtain rfl := List.length_eq_zero_iff.mp (Nat.le_zero.mp htext)
    exact nil
  | succ n ih =>
    intro text htext
    rcases text with _ | ⟨b, rest⟩
    · exact nil
    cases h : strict? (b :: rest) with
    | none =>
      apply stray b rest h
      apply ih
      simpa using htext
    | some r =>
      obtain ⟨c, m⟩ := r
      have hwidth := strict?_width h
      apply char _ c m h
      apply ih
      rw [List.length_drop]
      omega

theorem chars_of_decode? {t : Bytes} {c : Char} {n : Nat} (h : decode? t = some (c, n)) :
    chars t = c :: chars (t.drop n) := by
  rcases t with _ | ⟨b, rest⟩
  · cases h
  simp only [decode?, Option.some.injEq] at h
  cases hstrict : strict? (b :: rest) with
  | some r =>
    rw [hstrict] at h
    cases h
    rw [chars, items_of_strict? hstrict]
    rfl
  | none =>
    rw [hstrict] at h
    cases h
    rw [chars, items_of_stray hstrict]
    rfl

theorem ofChars_append (cs ds : List Char) : ofChars (cs ++ ds) = ofChars cs ++ ofChars ds :=
  List.flatMap_append

/-- A well-formed text is what its characters are written as. -/
theorem ofChars_chars {text : Bytes} (h : isValid text = true) : ofChars (chars text) = text := by
  induction text using chars_induction with
  | nil => rfl
  | char text c n hread ih =>
    rw [isValid, items_of_strict? hread, List.all_cons, Bool.and_eq_true] at h
    rw [chars, items_of_strict? hread, List.map_cons, ofChars, List.flatMap_cons]
    have hrest : (List.map Item.char (items (text.drop n))).flatMap encode = text.drop n := ih h.2
    rw [hrest, ← take_of_strict? hread, List.take_append_drop]
  | stray b rest hread ih =>
    rw [isValid, items_of_stray hread, List.all_cons, Bool.and_eq_true] at h
    exact absurd h.1 Bool.false_ne_true

def Item.ofChar (c : Char) : Item := ⟨c, true, encode c⟩

theorem items_ofChars (cs : List Char) : items (ofChars cs) = cs.map Item.ofChar := by
  induction cs with
  | nil => rfl
  | cons c cs ih =>
    have hcons : ofChars (c :: cs) = encode c ++ ofChars cs := rfl
    rw [hcons, items_of_strict? (strict?_encode c _), List.drop_left, ih, List.map_cons,
      Item.ofChar]

theorem chars_ofChars (cs : List Char) : chars (ofChars cs) = cs := by
  rw [chars, items_ofChars, List.map_map]
  exact List.map_id cs

theorem isValid_ofChars (cs : List Char) : isValid (ofChars cs) = true := by
  rw [isValid, items_ofChars, List.all_map]
  exact List.all_eq_true.mpr fun _ _ => rfl

theorem isValid_append {t u : Bytes} (ht : isValid t = true) (hu : isValid u = true) :
    isValid (t ++ u) = true := by
  rw [← ofChars_chars ht, ← ofChars_chars hu, ← ofChars_append]
  exact isValid_ofChars _

theorem isValid_encode (c : Char) : isValid (encode c) = true := by
  have hchars : ofChars [c] = encode c := List.flatMap_singleton encode c
  rw [← hchars]
  exact isValid_ofChars [c]

theorem isValid_ascii_cons {b : UInt8} (hb : b.toNat < 128) (rest : Bytes) :
    isValid (b :: rest) = isValid rest := by
  rw [isValid, items_of_strict? (strict?_ascii hb rest)]
  rfl

/-- A well-formed text is well-formed on both sides of a place where a byte of ASCII comes. -/
theorem isValid_of_append {t u : Bytes} (hu : HeadNot isWide u) (h : isValid (t ++ u) = true) :
    isValid t = true ∧ isValid u = true := by
  induction t using chars_induction with
  | nil => exact ⟨rfl, h⟩
  | char t c n hread ih =>
    obtain ⟨_, hn⟩ := strict?_width hread
    rw [isValid, items_of_strict? (strict?_append hread), List.drop_append_of_le_length hn] at h
    rw [isValid, items_of_strict? hread]
    exact ih h
  | stray b rest hread ih =>
    rw [List.cons_append] at h
    cases hread' : strict? (b :: (rest ++ u)) with
    | some r =>
      rw [strict?_of_append (List.cons_ne_nil b rest) hu hread'] at hread
      cases hread
    | none =>
      rw [isValid, items_of_stray hread'] at h
      cases h

end Backtrack.Utf8
