import Backtrack.Json.Escape

/-!
# The inside of a quoted string

Between its quotes a string consists of items: bytes that stand for themselves, short escapes, and
code units in hexadecimal digits. Decoding yields the text of the items one after another, two
adjacent code units that form a surrogate pair being one character.
-/

namespace Backtrack.Json

/-- Whether a byte stands for itself in a string: it is neither a control character, nor a quote or
a backslash. All bytes of a character outside ASCII are, and so are stray bytes. -/
def isPlain (b : UInt8) : Bool :=
  32 ≤ b.toNat && b.toNat ≠ 127 && b ≠ Bytes.ascii '\x22' && b ≠ Bytes.ascii '\\'

def isHex (b : UInt8) : Bool := (Bytes.hexValue? b).isSome

inductive StringItem where
  | plain (b : UInt8) (h : isPlain b = true)
  | short (b c : UInt8) (h : shortEscape? b = some c)
  | unit (a b c d : UInt8) (h : isHex a = true ∧ isHex b = true ∧ isHex c = true ∧ isHex d = true)

namespace StringItem

def bytes : StringItem → Bytes
  | plain b _ => [b]
  | short b _ _ => [92, b]
  | unit a b c d _ => [92, 117, a, b, c, d]

def text : List StringItem → Bytes
  | [] => []
  | plain b _ :: items => b :: text items
  | short _ c _ :: items => c :: text items
  | unit a b c d _ :: unit e f g h h' :: items =>
    match pairSurrogates? (codeUnit a b c d) (codeUnit e f g h) with
    | some n => Utf8.encodeNat n ++ text items
    | none => Utf8.encodeNat (codeUnit a b c d) ++ text (unit e f g h h' :: items)
  | unit a b c d _ :: items => Utf8.encodeNat (codeUnit a b c d) ++ text items

variable {items : List StringItem} {a b c d e f g i : UInt8} {n : Nat}

theorem text_pair {h h'} (hpair : pairSurrogates? (codeUnit a b c d) (codeUnit e f g i) = some n) :
    text (unit a b c d h :: unit e f g i h' :: items) = Utf8.encodeNat n ++ text items := by
  have htext : text (unit a b c d h :: unit e f g i h' :: items) =
      match pairSurrogates? (codeUnit a b c d) (codeUnit e f g i) with
      | some n => Utf8.encodeNat n ++ text items
      | none => Utf8.encodeNat (codeUnit a b c d) ++ text (unit e f g i h' :: items) := rfl
  rw [htext, hpair]

/-- A code unit stands for itself if it does not form a pair with another one behind it. -/
theorem text_unit {h} (hnext : ∀ e f g i h' rest, items = unit e f g i h' :: rest →
      pairSurrogates? (codeUnit a b c d) (codeUnit e f g i) = none) :
    text (unit a b c d h :: items) = Utf8.encodeNat (codeUnit a b c d) ++ text items := by
  rcases items with _ | ⟨⟨⟩ | ⟨⟩ | ⟨e, f, g, i, h'⟩, rest⟩
  · rfl
  · rfl
  · rfl
  · have htext : text (unit a b c d h :: unit e f g i h' :: rest) =
        match pairSurrogates? (codeUnit a b c d) (codeUnit e f g i) with
        | some n => Utf8.encodeNat n ++ text rest
        | none => Utf8.encodeNat (codeUnit a b c d) ++ text (unit e f g i h' :: rest) := rfl
    rw [htext, hnext e f g i h' rest rfl]

end StringItem

/-- Only a code unit is written like one. -/
theorem flatMap_ne_unit {items : List StringItem} {e f g i : UInt8}
    (h : ∀ e f g i hi items', items ≠ .unit e f g i hi :: items') (rest : Bytes) :
    items.flatMap StringItem.bytes ≠ 92 :: 117 :: e :: f :: g :: i :: rest := by
  intro hrest
  rcases items with _ | ⟨⟨x, hx⟩ | ⟨x, y, hx⟩ | ⟨x, y, z, w, hx⟩, items⟩
  · cases hrest
  · obtain ⟨rfl, -⟩ := List.cons.inj hrest
    exact absurd hx (by decide)
  · obtain ⟨rfl, -⟩ := List.cons.inj (List.cons.inj hrest).2
    cases hx
  · exact h x y z w hx items rfl

theorem decodeInside_cons {b : UInt8} (hb : b ≠ 92) (rest : Bytes) :
    decodeInside (b :: rest) = decoded [b] (decodeInside rest) := by
  rw [decodeInside.eq_def]
  simp [hb]

theorem decodeInside_plain {b : UInt8} (hb : isPlain b = true) (rest : Bytes) :
    decodeInside (b :: rest) = decoded [b] (decodeInside rest) := by
  apply decodeInside_cons
  rintro rfl
  exact absurd hb (by decide)

theorem decodeInside_short {b c : UInt8} (hb : shortEscape? b = some c) (rest : Bytes) :
    decodeInside (92 :: b :: rest) = decoded [c] (decodeInside rest) := by
  have hne : b ≠ 117 := by
    rintro rfl
    cases hb
  rw [decodeInside.eq_def]
  simp [hne, hb]

theorem decodeInside_pair {a b c d e f g h : UInt8} {rest : Bytes} {n : Nat}
    (hpair : pairSurrogates? (codeUnit a b c d) (codeUnit e f g h) = some n) :
    decodeInside (92 :: 117 :: a :: b :: c :: d :: 92 :: 117 :: e :: f :: g :: h :: rest) =
      decoded (Utf8.encodeNat n) (decodeInside rest) := by
  rw [decodeInside.eq_def]
  simp [hpair]

/-- A code unit stands for itself if it does not form a pair with another one behind it. -/
theorem decodeInside_unit {a b c d : UInt8} {rest : Bytes}
    (h : ∀ e f g i rest', rest = 92 :: 117 :: e :: f :: g :: i :: rest' →
      pairSurrogates? (codeUnit a b c d) (codeUnit e f g i) = none) :
    decodeInside (92 :: 117 :: a :: b :: c :: d :: rest) =
      decoded (Utf8.encodeNat (codeUnit a b c d)) (decodeInside rest) := by
  rw [decodeInside.eq_def]
  split
  case h_1 heq => cases heq
  case h_2 heq => cases heq
  case h_3 heq =>
    cases heq
    simp only [h _ _ _ _ _ rfl]
  case h_4 heq =>
    cases heq
    rfl
  case h_5 hshort heq =>
    cases heq
    exact absurd rfl (hshort a b c d rest)
  case h_6 hunit heq =>
    cases heq
    exact absurd rfl hunit
  case h_7 hescape heq =>
    cases heq
    exact absurd rfl (hescape _ _ rfl)

/-- What is not escaped stays as it is. -/
theorem decodeInside_of_not_mem {inside : Bytes} (h : 92 ∉ inside) :
    decodeInside inside = .ok inside := by
  induction inside with
  | nil => rfl
  | cons b rest ih =>
    obtain ⟨hb, hrest⟩ := List.ne_and_not_mem_of_not_mem_cons h
    rw [decodeInside_cons hb.symm, ih hrest]
    rfl

/-- Leaving out the decoding where there is no backslash makes no difference. -/
theorem decode_eq {text : Bytes} (h : 2 ≤ text.length) :
    decode text = decodeInside (text.drop 1).dropLast := by
  unfold decode
  rw [if_neg (Nat.not_lt.mpr h)]
  dsimp only
  split
  · rfl
  · rename_i hescape
    refine (decodeInside_of_not_mem fun hmem => hescape ?_).symm
    exact List.contains_iff_mem.mpr hmem

/-- What decoding makes of a text that is made of items. -/
theorem decodeInside_items (items : List StringItem) :
    decodeInside (items.flatMap StringItem.bytes) = .ok (StringItem.text items) := by
  fun_induction StringItem.text items with
  | case1 => rfl
  | case2 b h items ih =>
    rw [List.flatMap_cons, StringItem.bytes, List.singleton_append, decodeInside_plain h, ih]
    rfl
  | case3 b c h items ih =>
    have hcons : (StringItem.short b c h :: items).flatMap StringItem.bytes =
        92 :: b :: items.flatMap StringItem.bytes := rfl
    rw [hcons, decodeInside_short h, ih]
    rfl
  | case4 a b c d h₁ e f g h h₂ items n hpair ih =>
    have hcons : (StringItem.unit a b c d h₁ :: .unit e f g h h₂ :: items).flatMap
        StringItem.bytes = 92 :: 117 :: a :: b :: c :: d :: 92 :: 117 :: e :: f :: g :: h ::
          items.flatMap StringItem.bytes := rfl
    rw [hcons, decodeInside_pair hpair, ih]
    rfl
  | case5 a b c d h₁ e f g h h₂ items hpair ih =>
    have hcons : (StringItem.unit a b c d h₁ :: .unit e f g h h₂ :: items).flatMap
        StringItem.bytes = 92 :: 117 :: a :: b :: c :: d ::
          (StringItem.unit e f g h h₂ :: items).flatMap StringItem.bytes := rfl
    rw [hcons, decodeInside_unit, ih]
    · rfl
    · rintro e' f' g' h' rest hrest
      cases hrest
      exact hpair
  | case6 a b c d h₁ items hlast ih =>
    have hcons : (StringItem.unit a b c d h₁ :: items).flatMap StringItem.bytes =
        92 :: 117 :: a :: b :: c :: d :: items.flatMap StringItem.bytes := rfl
    rw [hcons, decodeInside_unit, ih]
    · rfl
    · intro e f g i rest hrest
      exact absurd hrest (flatMap_ne_unit hlast rest)

def quoted (items : List StringItem) : Bytes :=
  Bytes.ascii '\x22' :: items.flatMap StringItem.bytes ++ [Bytes.ascii '\x22']

theorem decodeInside_quoted (items : List StringItem) :
    decodeInside ((quoted items).drop 1).dropLast = .ok (StringItem.text items) := by
  rw [quoted, List.cons_append, List.drop_succ_cons, List.drop_zero, List.dropLast_concat,
    decodeInside_items]

theorem decode_quoted (items : List StringItem) :
    decode (quoted items) = .ok (StringItem.text items) := by
  rw [decode_eq (by simp [quoted]), decodeInside_quoted]

end Backtrack.Json
