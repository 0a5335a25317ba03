import Backtrack.Proofs.Text.Utf8

/-!
# Places as suffixes

A place in a text is also given by what is left of the text from there on. What a reader meets is
easier to say of the suffix: its bytes are in plain sight, and no arithmetic is needed to go on.
-/

namespace Backtrack

namespace Text

/-- The place of a text where a suffix of it begins. -/
def placeOf (text : Array UInt8) (s : Bytes) : Nat := text.size - s.length

variable {text : Array UInt8} {s u : Bytes}

theorem length_le (h : s <:+ text.toList) : s.length ≤ text.size := by
  have hlength := h.length_le
  rwa [Array.length_toList] at hlength

theorem placeOf_add_length (h : s <:+ text.toList) : placeOf text s + s.length = text.size := by
  have hlength := length_le h
  unfold placeOf
  omega

theorem placeOf_toList : placeOf text text.toList = 0 := by
  simp [placeOf]

theorem placeOf_drop (h : s <:+ text.toList) {n : Nat} (hn : n ≤ s.length) :
    placeOf text (s.drop n) = placeOf text s + n := by
  have hlength := length_le h
  simp only [placeOf, List.length_drop]
  omega

theorem placeOf_of_append {t : Bytes} (h : t ++ u <:+ text.toList) :
    placeOf text u = placeOf text (t ++ u) + t.length := by
  have hlength := length_le h
  rw [List.length_append] at hlength
  simp only [placeOf, List.length_append]
  omega

theorem placeOf_inj (hs : s <:+ text.toList) (hu : u <:+ text.toList)
    (h : placeOf text s = placeOf text u) : s = u := by
  have hlength : s.length = u.length := by
    have h₁ := placeOf_add_length hs
    have h₂ := placeOf_add_length hu
    omega
  exact (List.suffix_of_suffix_length_le hs hu (Nat.le_of_eq hlength)).eq_of_length hlength

/-- Every place from that of a suffix on is the place of a suffix of it. -/
theorem exists_suffix (hs : s <:+ text.toList) {p : Nat} (hp : placeOf text s ≤ p)
    (hsize : p ≤ text.size) : ∃ u, u <:+ s ∧ placeOf text u = p := by
  have hlength := placeOf_add_length hs
  refine ⟨s.drop (p - placeOf text s), List.drop_suffix _ s, ?_⟩
  rw [placeOf_drop hs (by omega)]
  omega

theorem extract_placeOf (h : s <:+ text.toList) (n : Nat) :
    (text.extract (placeOf text s) (placeOf text s + n)).toList = s.take n := by
  have hlength := placeOf_add_length h
  obtain ⟨t, ht⟩ := h
  have hplace : placeOf text s = t.length := by
    have htotal := congrArg List.length ht
    simp only [List.length_append, Array.length_toList] at htotal
    omega
  rw [hplace, Array.toList_extract, ← ht, List.extract_eq_take_drop]
  simp

theorem at?_placeOf (h : s <:+ text.toList) :
    Utf8.at? text (placeOf text s) = Utf8.decode? (s.take 4) := by
  unfold Utf8.at?
  rw [extract_placeOf h]

theorem at?_nil : Utf8.at? text (placeOf text []) = none := by
  rw [at?_placeOf (List.nil_suffix)]
  rfl

theorem at?_ascii {b : UInt8} (h : b :: s <:+ text.toList) (hb : b.toNat < 128) :
    Utf8.at? text (placeOf text (b :: s)) = some (Char.ofNat b.toNat, 1) := by
  rw [at?_placeOf h]
  simp only [List.take_succ_cons, Utf8.decode?]
  rw [Utf8.strict?_ascii hb]
  rfl

/-- Where no ASCII byte is, there is a character outside ASCII or a stray byte, which counts as
such. -/
theorem at?_wide {b : UInt8} (h : b :: s <:+ text.toList) (hb : 128 ≤ b.toNat) :
    ∃ c n, Utf8.at? text (placeOf text (b :: s)) = some (c, n) ∧ 128 ≤ c.toNat ∧ 0 < n ∧
      n ≤ (b :: s).length ∧ ∀ x ∈ (b :: s).take n, 128 ≤ x.toNat := by
  obtain ⟨c, n, hdecode, hc, hwide⟩ := Utf8.decode?_wide hb (s.take 3)
  have hwidth := Utf8.decode?_width hdecode
  rw [List.length_cons, List.length_take] at hwidth
  refine ⟨c, n, by rw [at?_placeOf h]; exact hdecode, hc, hwidth.1, ?_, ?_⟩
  · rw [List.length_cons]
    omega
  · rw [← List.take_succ_cons, List.take_take, Nat.min_eq_left (by omega)] at hwide
    exact hwide

end Text

end Backtrack
