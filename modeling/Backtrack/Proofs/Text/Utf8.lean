import Backtrack.Text.Utf8

/-!
# The bytes of characters

A character that is read from a text has at least one byte, and all its bytes are there. If its
first byte is one of ASCII, it is that character, otherwise none of its bytes is.
-/

namespace Backtrack.Utf8

theorem strict?_ascii {b : UInt8} (hb : b.toNat < 128) (rest : Bytes) :
    strict? (b :: rest) = some (Char.ofNat b.toNat, 1) := by
  simp only [strict?]
  rw [if_pos hb]

theorem of_scalar? {least size value n : Nat} {c : Char}
    (h : scalar? least size value = some (c, n)) : n = size ∧ least ≤ c.toNat := by
  unfold scalar? at h
  split at h
  · rename_i hvalid
    cases h
    rw [Char.ofNat, dif_pos hvalid.2]
    exact ⟨rfl, hvalid.1⟩
  · cases h

theorem continuation?_wide {b : UInt8} {x : Nat} (h : continuation? b = some x) :
    128 ≤ b.toNat := by
  unfold continuation? at h
  split at h
  · rename_i hrange
    simp only [Bool.and_eq_true, decide_eq_true_eq] at hrange
    exact hrange.1
  · cases h

theorem exists_continuation {rest : Bytes} {x : Nat} (h : (rest[0]? >>= continuation?) = some x) :
    ∃ b more, rest = b :: more ∧ 128 ≤ b.toNat := by
  cases rest with
  | nil => cases h
  | cons b more => exact ⟨b, more, rfl, continuation?_wide h⟩

/-- A character is a byte of ASCII, or it is none of ASCII and neither is any of its bytes, which
are all there. -/
theorem strict?_cases {b : UInt8} {rest : Bytes} {c : Char} {n : Nat}
    (h : strict? (b :: rest) = some (c, n)) :
    (b.toNat < 128 ∧ c = Char.ofNat b.toNat ∧ n = 1) ∨
      (128 ≤ b.toNat ∧ 128 ≤ c.toNat ∧ ∃ more, n = more + 1 ∧ more ≤ rest.length ∧
        ∀ x ∈ rest.take more, 128 ≤ x.toNat) := by
  simp only [strict?] at h
  split at h
  · rename_i hb
    cases h
    exact .inl ⟨hb, rfl, rfl⟩
  rename_i hb
  refine .inr ⟨Nat.le_of_not_lt hb, ?_⟩
  split at h
  · cases h
  split at h
  · obtain ⟨x, hx, h₁⟩ := Option.bind_eq_some_iff.mp h
    obtain ⟨rfl, hleast⟩ := of_scalar? h₁
    obtain ⟨d, rest, rfl, hd⟩ := exists_continuation hx
    exact ⟨hleast, 1, rfl, by simp, by simp [hd]⟩
  split at h
  · obtain ⟨x, hx, h₁⟩ := Option.bind_eq_some_iff.mp h
    obtain ⟨y, hy, h₂⟩ := Option.bind_eq_some_iff.mp h₁
    obtain ⟨rfl, hleast⟩ := of_scalar? h₂
    obtain ⟨d, rest, rfl, hd⟩ := exists_continuation hx
    obtain ⟨e, rest, rfl, he⟩ := exists_continuation hy
    exact ⟨Nat.le_trans (by decide) hleast, 2, rfl, by simp, by simp [hd, he]⟩
  split at h
  · obtain ⟨x, hx, h₁⟩ := Option.bind_eq_some_iff.mp h
    obtain ⟨y, hy, h₂⟩ := Option.bind_eq_some_iff.mp h₁
    obtain ⟨z, hz, h₃⟩ := Option.bind_eq_some_iff.mp h₂
    obtain ⟨rfl, hleast⟩ := of_scalar? h₃
    obtain ⟨d, rest, rfl, hd⟩ := exists_continuation hx
    obtain ⟨e, rest, rfl, he⟩ := exists_continuation hy
    obtain ⟨f, rest, rfl, hf⟩ := exists_continuation hz
    exact ⟨Nat.le_trans (by decide) hleast, 3, rfl, by simp, by simp [hd, he, hf]⟩
  · cases h

theorem strict?_width {text : Bytes} {c : Char} {n : Nat} (h : strict? text = some (c, n)) :
    0 < n ∧ n ≤ text.length := by
  cases text with
  | nil => cases h
  | cons b rest =>
    rw [List.length_cons]
    rcases strict?_cases h with ⟨_, _, rfl⟩ | ⟨_, _, more, rfl, hmore, _⟩
    · omega
    · omega

theorem strict?_wide {b : UInt8} {rest : Bytes} {c : Char} {n : Nat} (hb : 128 ≤ b.toNat)
    (h : strict? (b :: rest) = some (c, n)) :
    128 ≤ c.toNat ∧ ∀ x ∈ (b :: rest).take n, 128 ≤ x.toNat := by
  rcases strict?_cases h with ⟨hascii, _, _⟩ | ⟨_, hc, more, rfl, _, hmore⟩
  · omega
  · rw [List.take_succ_cons]
    exact ⟨hc, List.forall_mem_cons.mpr ⟨hb, hmore⟩⟩

theorem decode?_width {text : Bytes} {c : Char} {n : Nat} (h : decode? text = some (c, n)) :
    0 < n ∧ n ≤ text.length := by
  cases text with
  | nil => cases h
  | cons b rest =>
    simp only [decode?, Option.some.injEq] at h
    cases hs : strict? (b :: rest) with
    | none =>
      rw [hs] at h
      cases h
      simp
    | some r =>
      rw [hs] at h
      cases h
      exact strict?_width hs

theorem decode?_wide {b : UInt8} (hb : 128 ≤ b.toNat) (rest : Bytes) :
    ∃ c n, decode? (b :: rest) = some (c, n) ∧ 128 ≤ c.toNat ∧
      ∀ x ∈ (b :: rest).take n, 128 ≤ x.toNat := by
  cases h : strict? (b :: rest) with
  | none =>
    refine ⟨replacement, 1, by simp [decode?, h], by decide, ?_⟩
    intro x hx
    rwa [List.mem_singleton.mp hx]
  | some r =>
    obtain ⟨c, n⟩ := r
    exact ⟨c, n, by simp [decode?, h], strict?_wide hb h⟩

/-- A character lies inside the text and has at least one byte. -/
theorem at?_width {text : Array UInt8} {offset : Nat} {c : Char} {n : Nat}
    (h : at? text offset = some (c, n)) : 0 < n ∧ offset + n ≤ text.size := by
  have hwidth := decode?_width h
  simp only [Array.length_toList, Array.size_extract] at hwidth
  omega

end Backtrack.Utf8
