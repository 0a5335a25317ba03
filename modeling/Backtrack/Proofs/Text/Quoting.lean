import Backtrack.Proofs.Text.Characters
import Backtrack.Text.Unquote

/-!
# What stands in double quotes

A literal in double quotes that stands for a text is made of characters, stray bytes and escapes,
with a closing quote behind them. An escape is a backslash with a letter, or with digits of a base
and a number that what stands before them tells.

This module does NOT say which text a literal stands for.
-/

namespace Backtrack.Text

/-- What is written between the backslash of an escape and its digits; their base and number. -/
inductive Introduces : Bytes → (base wanted : Nat) → Prop where
  | byte : Introduces [120] 16 2
  | short : Introduces [117] 16 4
  | long : Introduces [85] 16 8
  | octal : Introduces [] 8 3

def IsDigitOf (base : Nat) (b : UInt8) : Prop := ∃ v, Bytes.hexValue? b = some v ∧ v < base

/-- What stands behind an opening double quote, up to the closing one at its end. -/
inductive Inside : Bytes → Prop where
  | close : Inside [34]
  | char {t : Bytes} {c : Char} {n : Nat} (hread : Utf8.strict? t = some (c, n))
      (hchar : c ≠ '\x22' ∧ c ≠ '\n' ∧ c ≠ '\\') (hrest : Inside (t.drop n)) : Inside t
  | stray {b : UInt8} {rest : Bytes} (hread : Utf8.strict? (b :: rest) = none)
      (hrest : Inside rest) : Inside (b :: rest)
  | letter {b c : UInt8} {rest : Bytes} (hb : letterEscape? b = some c) (hrest : Inside rest) :
    Inside (92 :: b :: rest)
  | digits {lead ds rest : Bytes} {base wanted : Nat} (hlead : Introduces lead base wanted)
      (hlength : ds.length = wanted) (hds : ∀ d ∈ ds, IsDigitOf base d) (hrest : Inside rest) :
    Inside (92 :: (lead ++ (ds ++ rest)))

theorem Inside.exists_append {t : Bytes} (h : Inside t) : ∃ front, t = front ++ [34] := by
  induction h with
  | close => exact ⟨[], rfl⟩
  | @char t c n hread _ _ ih =>
    obtain ⟨front, hfront⟩ := ih
    exact ⟨t.take n ++ front, by rw [List.append_assoc, ← hfront, List.take_append_drop]⟩
  | @stray b _ _ _ ih =>
    obtain ⟨front, rfl⟩ := ih
    exact ⟨b :: front, rfl⟩
  | @letter b _ _ _ _ ih =>
    obtain ⟨front, rfl⟩ := ih
    exact ⟨92 :: b :: front, rfl⟩
  | @digits lead ds _ _ _ _ _ _ _ ih =>
    obtain ⟨front, rfl⟩ := ih
    exact ⟨92 :: (lead ++ (ds ++ front)), by simp⟩

/-- In a number that is read digit by digit each digit has been read. -/
theorem forall_of_foldlM {f : Nat → UInt8 → Option Nat} {ds : Bytes} {k n : Nat}
    (h : ds.foldlM f k = some n) : ∀ d ∈ ds, ∃ i j, f i d = some j := by
  induction ds generalizing k with
  | nil => nofun
  | cons d ds ih =>
    rw [List.foldlM_cons] at h
    obtain ⟨j, hj, h⟩ := Option.bind_eq_some_iff.mp h
    exact List.forall_mem_cons.mpr ⟨⟨k, j, hj⟩, ih h⟩

theorem digits_of_hexNumber? {ds : Bytes} {n : Nat} (h : hexNumber? ds = some n) :
    ∀ d ∈ ds, IsDigitOf 16 d := by
  intro d hd
  obtain ⟨i, j, hj⟩ := forall_of_foldlM h d hd
  obtain ⟨v, hv, _⟩ := Option.map_eq_some_iff.mp hj
  exact ⟨v, hv, Bytes.hexValue?_lt hv⟩

theorem digits_of_octalNumber? {ds : Bytes} {n : Nat} (h : octalNumber? ds = some n) :
    ∀ d ∈ ds, IsDigitOf 8 d := by
  intro d hd
  obtain ⟨i, j, hj⟩ := forall_of_foldlM h d hd
  split at hj
  · rename_i hrange
    simp only [Bool.and_eq_true, decide_eq_true_eq, UInt8.le_iff_toNat_le] at hrange
    have hdigit : Bytes.isDigit d = true := by
      simp only [Bytes.isDigit, Bool.and_eq_true, decide_eq_true_eq, UInt8.le_iff_toNat_le]
      exact ⟨hrange.1, Nat.le_trans hrange.2 (by decide)⟩
    refine ⟨d.toNat - 48, by rw [Bytes.hexValue?, if_pos hdigit], ?_⟩
    have hle : d.toNat ≤ 55 := hrange.2
    omega
  · cases hj

theorem exists_of_before? {item rest : Option Bytes} {v : Bytes} (h : before? item rest = some v) :
    (∃ bytes, item = some bytes) ∧ ∃ more, rest = some more := by
  obtain ⟨bytes, hbytes, h⟩ := Option.bind_eq_some_iff.mp h
  obtain ⟨more, hmore, _⟩ := Option.bind_eq_some_iff.mp h
  exact ⟨⟨bytes, hbytes⟩, more, hmore⟩

/-- A character that is not a given one of ASCII starts with another byte. -/
theorem char_ne_of_strict? {b : UInt8} {rest : Bytes} {c d : Char} {n : Nat}
    (h : Utf8.strict? (b :: rest) = some (c, n)) (hd : d.toNat < 128) (hb : b ≠ Bytes.ascii d) :
    c ≠ d := by
  rintro rfl
  rcases Utf8.strict?_cases h with ⟨hascii, hc, _⟩ | ⟨_, hwide, _⟩
  · apply hb
    rw [hc, Bytes.ascii, Char.ofNat, dif_pos (.inl (by omega))]
    exact (UInt8.ofNat_toNat).symm
  · omega

/-- An escape with the number that its digits make. -/
theorem inside_escape (ds : Bytes) {item : Option Nat → Option Bytes}
    {number : Bytes → Option Nat} {lead rest v : Bytes} {base wanted : Nat}
    (hlead : Introduces lead base wanted) (hlength : ds.length = wanted) (hitem : item none = none)
    (hnumber : ∀ n, number ds = some n → ∀ d ∈ ds, IsDigitOf base d)
    (h : before? (item (number ds)) (unquoteInside 0 rest) = some v)
    (hrest : ∀ v, unquoteInside 0 rest = some v → Inside rest) :
    Inside (92 :: (lead ++ (ds ++ rest))) := by
  obtain ⟨⟨bytes, hbytes⟩, more, hmore⟩ := exists_of_before? h
  cases hn : number ds with
  | none =>
    rw [hn, hitem] at hbytes
    cases hbytes
  | some n => exact .digits hlead hlength (hnumber n hn) (hrest more hmore)

theorem unquoteInside_letter {b c : UInt8} {rest : Bytes}
    (h1 : ∀ x y r, b = 120 → rest = x :: y :: r → False)
    (h2 : ∀ x y z u r, b = 117 → rest = x :: y :: z :: u :: r → False)
    (h3 : ∀ x y z u e f g i r, b = 85 → rest = x :: y :: z :: u :: e :: f :: g :: i :: r → False)
    (hc : letterEscape? b = some c) :
    unquoteInside 0 (92 :: b :: rest) = (unquoteInside 0 rest).map (c :: ·) := by
  match rest, h1, h2, h3 with
  | _ :: _ :: _, h1, h2, h3 => rw [unquoteInside.eq_8 _ _ _ _ h1 h2 h3, hc]
  | [], h1, h2, h3 => rw [unquoteInside.eq_9 _ _ h1 h2 h3 nofun, hc]
  | [_], h1, h2, h3 => rw [unquoteInside.eq_9 _ _ h1 h2 h3 nofun, hc]

/-- A literal that can be decoded is made of characters and escapes. -/
theorem inside_of_unquote {copy : Nat} {t v : Bytes} (h : unquoteInside copy t = some v) :
    Inside (t.drop copy) := by
  induction copy, t using unquoteInside.induct generalizing v with
  | case1 copy => simp [unquoteInside] at h
  | case2 copy b rest ih =>
    rw [unquoteInside] at h
    obtain ⟨w, hw, _⟩ := Option.map_eq_some_iff.mp h
    exact ih hw
  | case3 rest hrest =>
    rw [List.isEmpty_iff.mp hrest]
    exact .close
  | case4 rest hrest => simp [unquoteInside, hrest] at h
  | case5 tail => simp [unquoteInside] at h
  | case6 a b rest ih =>
    rw [unquoteInside] at h
    exact inside_escape [a, b] .byte rfl rfl (fun _ => digits_of_hexNumber?) h fun _ => ih
  | case7 a b c d rest ih =>
    rw [unquoteInside] at h
    exact inside_escape [a, b, c, d] .short rfl rfl (fun _ => digits_of_hexNumber?) h
      fun _ => ih
  | case8 a b c d e f g i rest ih =>
    rw [unquoteInside] at h
    exact inside_escape [a, b, c, d, e, f, g, i] .long rfl rfl
      (fun _ => digits_of_hexNumber?) h fun _ => ih
  | case9 b rest h1 h2 h3 c hc ih =>
    rw [unquoteInside_letter h1 h2 h3 hc] at h
    obtain ⟨w, hw, _⟩ := Option.map_eq_some_iff.mp h
    exact .letter hc (ih hw)
  | case10 b hb c d rest h1 h2 h3 ih =>
    rw [unquoteInside.eq_8 _ _ _ _ h1 h2 h3, hb] at h
    exact inside_escape [b, c, d] .octal rfl rfl (fun _ => digits_of_octalNumber?) h
      fun _ => ih
  | case11 b rest h1 h2 h3 hb h4 => simp [unquoteInside.eq_9 _ _ h1 h2 h3 h4, hb] at h
  | case12 => simp [unquoteInside] at h
  | case13 b rest h1 h2 h3 h4 h5 h6 h7 c n hread ih =>
    rw [unquoteInside.eq_11 _ _ h1 h2 h3 h4 h5 h6 h7, hread] at h
    obtain ⟨w, hw, _⟩ := Option.map_eq_some_iff.mp h
    have hbackslash : b ≠ 92 := by
      rintro rfl
      cases rest with
      | nil => exact h7 rfl rfl
      | cons d rest => exact h6 d rest rfl rfl
    refine .char hread ⟨?_, ?_, ?_⟩ ?_
    · exact char_ne_of_strict? hread (by decide) fun hb => h1 hb
    · exact char_ne_of_strict? hread (by decide) fun hb => h2 hb
    · exact char_ne_of_strict? hread (by decide) hbackslash
    · have hpos := (Utf8.strict?_width hread).1
      obtain ⟨k, rfl⟩ : ∃ k, n = k + 1 := ⟨n - 1, by omega⟩
      exact ih hw
  | case14 b rest h1 h2 h3 h4 h5 h6 h7 hread ih =>
    rw [unquoteInside.eq_11 _ _ h1 h2 h3 h4 h5 h6 h7, hread] at h
    obtain ⟨w, hw, _⟩ := Option.map_eq_some_iff.mp h
    exact .stray hread (ih hw)

theorem body_of_unquote {inside v : Bytes} (h : unquote? (96 :: inside) = some v) :
    ∃ body, inside = body ++ [96] ∧ 96 ∉ body := by
  simp only [unquote?] at h
  split at h
  · rename_i hends
    rw [Bool.and_eq_true, decide_eq_true_eq] at hends
    obtain ⟨body, rfl⟩ := List.getLast?_eq_some_iff.mp hends.1
    refine ⟨body, rfl, ?_⟩
    simpa using hends.2
  · cases h

end Backtrack.Text
