import Backtrack.Input
import Backtrack.Proofs.Text.Characters
import Mathlib.Data.List.DropRight
import Mathlib.Logic.Relation

/-!
# Lines and columns

A position is counted from the bytes in front of an offset, while a parser advances character by
character. Both see the same characters, whatever the bytes are: a newline is never part of another
character, and what is cut off behind a character does not change how it is read. So line and column
advance with the characters, and tell the places between them apart.

Nothing is shown here of offsets inside a character.
-/

namespace Backtrack

/-- What stands at the end of two lists together, as far as a condition reaches back. -/
theorem rtakeWhile_append {α : Type} (p : α → Bool) (as bs : List α) :
    (as ++ bs).rtakeWhile p = if bs.all p then as.rtakeWhile p ++ bs else bs.rtakeWhile p := by
  induction bs using List.reverseRecOn with
  | nil => simp
  | append_singleton bs b ih =>
    rw [← List.append_assoc, List.rtakeWhile_concat, List.rtakeWhile_concat, ih, List.all_append]
    by_cases hb : p b = true
    · by_cases hbs : bs.all p = true <;> simp [hb, hbs]
    · simp [hb]

namespace Utf8

/-- A character is a newline, and then it is that byte, or neither it nor any of its bytes is. -/
theorem newline_cases {t : Bytes} {c : Char} {n : Nat} (h : decode? t = some (c, n)) :
    (t.take n = [10] ∧ c = '\n') ∨ ((10 : UInt8) ∉ t.take n ∧ c ≠ '\n') := by
  rcases decode?_cases h with ⟨b, rest, rfl, hb, rfl, rfl⟩ | ⟨hc, hwide⟩
  · by_cases hnewline : b = 10
    · subst hnewline
      exact .inl ⟨rfl, rfl⟩
    · refine .inr ⟨by simpa using fun h : 10 = b => hnewline h.symm, ?_⟩
      intro hchar
      have hcode := congrArg Char.toNat hchar
      rw [Char.ofNat, dif_pos (.inl (by omega))] at hcode
      exact hnewline (UInt8.toNat_inj.mp hcode)
  · refine .inr ⟨fun hmem => absurd (hwide 10 hmem) (by decide), ?_⟩
    rintro rfl
    exact absurd hc (by decide)

/-- What holds of the empty text, and of a text if it holds behind its first character, stray bytes
included, holds of all texts. -/
theorem decode?_induction {P : Bytes → Prop} (nil : P [])
    (char : ∀ t c n, decode? t = some (c, n) → P (t.drop n) → P t) (t : Bytes) : P t := by
  induction t using chars_induction with
  | nil => exact nil
  | char t c n h ih => exact char t c n (decode?_of_strict? h) ih
  | stray b rest h ih => exact char (b :: rest) _ 1 (decode?_of_stray h) ih

theorem count_newline (t : Bytes) : t.count 10 = (chars t).count '\n' := by
  induction t using decode?_induction with
  | nil => rfl
  | char t c n h ih =>
    have hsplit := congrArg (List.count (10 : UInt8)) (List.take_append_drop n t)
    rw [List.count_append, ih] at hsplit
    rw [← hsplit, chars_of_decode? h]
    rcases newline_cases h with ⟨htake, rfl⟩ | ⟨htake, hc⟩
    · rw [htake, List.count_singleton_self, List.count_cons_self, Nat.add_comm]
    · rw [List.count_eq_zero_of_not_mem htake, List.count_cons_of_ne hc, Nat.zero_add]

theorem all_ne_newline (t : Bytes) : t.all (· ≠ 10) = (chars t).all (· ≠ '\n') := by
  have hmem : (10 : UInt8) ∈ t ↔ '\n' ∈ chars t := by
    rw [← List.count_pos_iff, ← List.count_pos_iff, count_newline]
  rw [Bool.eq_iff_iff, List.all_eq_true, List.all_eq_true]
  simp only [decide_eq_true_eq]
  constructor
  · rintro h c hc rfl
    exact h 10 (hmem.mpr hc) rfl
  · rintro h b hb rfl
    exact h '\n' (hmem.mp hb) rfl

/-- The characters of the last line are the last line of the characters. -/
theorem chars_lastLine (t : Bytes) :
    chars (Input.lastLine t) = (chars t).rtakeWhile (· ≠ '\n') := by
  induction t using decode?_induction with
  | nil => rfl
  | char t c n h ih =>
    have hchars := chars_of_decode? h
    have hlast : Input.lastLine t = if (t.drop n).all (· ≠ 10)
        then Input.lastLine (t.take n) ++ t.drop n else Input.lastLine (t.drop n) := by
      conv_lhs => rw [← List.take_append_drop n t]
      exact rtakeWhile_append _ _ _
    rw [hlast, hchars, ← List.singleton_append, rtakeWhile_append, ← all_ne_newline]
    by_cases hrest : (t.drop n).all (· ≠ 10) = true
    · rw [if_pos hrest, if_pos hrest]
      rcases newline_cases h with ⟨htake, rfl⟩ | ⟨htake, hc⟩
      · rw [htake]
        rfl
      · have hline : Input.lastLine (t.take n) = t.take n := by
          apply List.rtakeWhile_eq_self_iff.mpr
          intro b hb
          exact decide_eq_true fun heq => htake (heq ▸ hb)
        have hchar : [c].rtakeWhile (· ≠ '\n') = [c] := by
          apply List.rtakeWhile_eq_self_iff.mpr
          intro d hd
          rw [List.mem_singleton.mp hd]
          exact decide_eq_true hc
        rw [hline, hchar, List.take_append_drop, hchars, List.singleton_append]
    · rw [if_neg hrest, if_neg hrest, ih]

/-- How a character is read does not depend on how much of what follows it is there. -/
theorem decode?_of_append {t u v : Bytes} {c : Char}
    (h : decode? (t ++ (u ++ v)) = some (c, t.length)) :
    decode? (t ++ u) = some (c, t.length) := by
  obtain ⟨hpos, _⟩ := decode?_width h
  obtain ⟨b, rest, rfl⟩ := List.exists_cons_of_length_pos hpos
  cases hstrict : strict? (b :: rest ++ (u ++ v)) with
  | some r =>
    obtain ⟨d, n⟩ := r
    rw [decode?_of_strict? hstrict] at h
    obtain ⟨hd, hn⟩ := Prod.mk.inj (Option.some.inj h)
    subst hd hn
    have htake := take_of_strict? hstrict
    rw [List.take_left] at htake
    have hencode := strict?_encode d u
    rw [← htake] at hencode
    exact decode?_of_strict? hencode
  | none =>
    have hstray : strict? (b :: rest ++ u) = none := by
      cases hshort : strict? (b :: rest ++ u) with
      | none => rfl
      | some r =>
        have hlong := strict?_append (u := v) hshort
        rw [List.append_assoc, hstrict] at hlong
        cases hlong
    rw [List.cons_append] at h hstrict hstray ⊢
    rw [decode?_of_stray hstrict] at h
    rw [decode?_of_stray hstray]
    exact h

theorem chars_take_append {t u : Bytes} {c : Char} {n : Nat} (h : decode? t = some (c, n))
    (hu : u <+: t.drop n) : chars (t.take n ++ u) = c :: chars u := by
  obtain ⟨v, hv⟩ := hu
  have hlength : (t.take n).length = n := by
    rw [List.length_take, Nat.min_eq_left (decode?_width h).2]
  have hsplit : t.take n ++ (u ++ v) = t := by rw [hv, List.take_append_drop]
  have hshort : decode? (t.take n ++ u) = some (c, (t.take n).length) := by
    apply decode?_of_append (v := v)
    rw [hsplit, hlength, h]
  rw [chars_of_decode? hshort, List.drop_left]

end Utf8

namespace Input

/-- A character of the text starts at one offset and ends at the other. -/
def Advances (input : Input) (o o' : Nat) : Prop :=
  ∃ c width, input.char? o = .ok (some (c, width)) ∧ o' = o + width

/-- An offset that reading the text character by character comes to. -/
def Boundary (input : Input) (o : Nat) : Prop := Relation.ReflTransGen input.Advances 0 o

/-- The bytes in front of an offset. -/
def before (input : Input) (o : Nat) : Bytes := input.text.toList.take o

/-- The bytes from an offset on. -/
def behind (input : Input) (o : Nat) : Bytes := input.text.toList.drop o

variable {input : Input} {o o' : Nat} {c : Char} {width : Nat}

theorem char?_eq_some : input.char? o = .ok (some (c, width)) ↔
    Utf8.decode? (input.behind o) = some (c, width) := by
  unfold char?
  by_cases hsize : input.size ≤ o
  · have hnil : input.behind o = [] := List.drop_eq_nil_of_le (by simpa [size] using hsize)
    rw [if_pos (by exact_mod_cast hsize), hnil]
    simp [Utf8.decode?]
  · have hextract : (input.text.extract o (o + 4)).toList = (input.behind o).take 4 := by
      rw [Array.toList_extract, List.extract_eq_take_drop, Nat.add_sub_cancel_left]
      rfl
    rw [if_neg (by exact_mod_cast hsize), if_neg (by omega), Int.toNat_natCast, Utf8.at?, hextract,
      Utf8.decode?_take, Except.ok.injEq]

theorem position_eq (h : o ≤ input.size) : input.position o =
    { filename := input.filename
      offset := o
      line := (Utf8.chars (input.before o)).count '\n' + 1
      column := ((Utf8.chars (input.before o)).rtakeWhile (· ≠ '\n')).length + 1 } := by
  have hbefore : input.slice 0 o = input.before o := by
    rw [slice, Array.toList_extract, List.extract_eq_take_drop]
    rfl
  have hcolumn : (Utf8.items (lastLine (input.before o))).length =
      ((Utf8.chars (input.before o)).rtakeWhile (· ≠ '\n')).length := by
    rw [← Utf8.chars_lastLine, Utf8.chars, List.length_map]
  unfold position
  simp only [Int.toNat_natCast, Nat.min_eq_left h, hbefore, Utf8.count_newline, hcolumn]

theorem width_of_char? (h : input.char? o = .ok (some (c, width))) :
    0 < width ∧ o + width ≤ input.size := by
  have hwidth := Utf8.decode?_width (char?_eq_some.mp h)
  rw [behind, List.length_drop, Array.length_toList] at hwidth
  unfold size
  omega

theorem exists_char? (h : o < input.size) : ∃ c width, input.char? o = .ok (some (c, width)) := by
  have hne : input.behind o ≠ [] := by
    intro hnil
    have hlength := List.drop_eq_nil_iff.mp hnil
    rw [Array.length_toList] at hlength
    exact Nat.not_le.mpr h hlength
  obtain ⟨c, width, hchar⟩ := Utf8.exists_decode? hne
  exact ⟨c, width, char?_eq_some.mpr hchar⟩

theorem Boundary.step (ho : input.Boundary o) (h : input.char? o = .ok (some (c, width))) :
    input.Boundary (o + width) := .tail ho ⟨c, width, h, rfl⟩

theorem Boundary.le (h : input.Boundary o) : o ≤ input.size := by
  cases h with
  | refl => exact Nat.zero_le _
  | tail _ hlast =>
    obtain ⟨c, width, hchar, rfl⟩ := hlast
    exact (width_of_char? hchar).2

theorem before_add : input.before (o + width) = input.before o ++ (input.behind o).take width :=
  List.take_add

theorem behind_add : input.behind (o + width) = (input.behind o).drop width := by
  rw [behind, behind, List.drop_drop]

/-- At a boundary no character is cut, however much of what follows is there. -/
theorem Boundary.chars_append (h : input.Boundary o) :
    ∀ u, u <+: input.behind o →
      Utf8.chars (input.before o ++ u) = Utf8.chars (input.before o) ++ Utf8.chars u := by
  induction h with
  | refl => exact fun u _ => rfl
  | @tail o _ _ hlast ih =>
    obtain ⟨c, width, hchar, rfl⟩ := hlast
    have hdecode := char?_eq_some.mp hchar
    have hcut : ∀ u, u <+: input.behind (o + width) → Utf8.chars (input.before (o + width) ++ u) =
        Utf8.chars (input.before o) ++ c :: Utf8.chars u := by
      intro u hu
      rw [behind_add] at hu
      have hprefix : (input.behind o).take width ++ u <+: input.behind o := by
        conv_rhs => rw [← List.take_append_drop width (input.behind o)]
        exact (List.prefix_append_right_inj _).mpr hu
      rw [before_add, List.append_assoc, ih _ hprefix, Utf8.chars_take_append hdecode hu]
    intro u hu
    have hend := hcut [] (List.nil_prefix)
    rw [List.append_nil] at hend
    rw [hcut u hu, hend, List.append_assoc]
    rfl

/-- A boundary adds one character to those in front of the last one. -/
theorem Boundary.chars_step (ho : input.Boundary o) (h : input.char? o = .ok (some (c, width))) :
    Utf8.chars (input.before (o + width)) = Utf8.chars (input.before o) ++ [c] := by
  have hchunk := Utf8.chars_take_append (char?_eq_some.mp h) List.nil_prefix
  rw [List.append_nil] at hchunk
  rw [before_add, ho.chars_append _ (List.take_prefix width _), hchunk]
  rfl

theorem Boundary.position_step (ho : input.Boundary o)
    (h : input.char? o = .ok (some (c, width))) :
    input.position (o + width : Nat) = { input.position o with
      offset := (o + width : Nat)
      line := if c = '\n' then (input.position o).line + 1 else (input.position o).line
      column := if c = '\n' then 1 else (input.position o).column + 1 } := by
  rw [position_eq (ho.step h).le, position_eq ho.le, ho.chars_step h, List.count_append,
    List.rtakeWhile_concat]
  by_cases hc : c = '\n'
  · simp [hc]
  · simp [hc]

end Input

namespace Position

/-- The line is less, or it is the same and the column is less. -/
def Precedes (p q : Position) : Prop := p.line < q.line ∨ p.line = q.line ∧ p.column < q.column

theorem Precedes.trans {p q r : Position} (hpq : p.Precedes q) (hqr : q.Precedes r) :
    p.Precedes r := by
  unfold Precedes at *
  omega

theorem Precedes.not_same {p q : Position} (h : p.Precedes q) :
    ¬ (p.line = q.line ∧ p.column = q.column) := by
  unfold Precedes at h
  omega

end Position

namespace Input

variable {input : Input} {o o' : Nat} {c : Char} {width : Nat}

theorem le_of_reaches (h : Relation.ReflTransGen input.Advances o o') : o ≤ o' := by
  induction h with
  | refl => exact Nat.le_refl o
  | tail _ hlast ih =>
    obtain ⟨c, width, _, rfl⟩ := hlast
    exact Nat.le_add_right_of_le ih

theorem advances_unique : Relator.RightUnique input.Advances := by
  rintro o _ _ ⟨c, width, hchar, rfl⟩ ⟨c', width', hchar', rfl⟩
  rw [hchar] at hchar'
  cases hchar'
  rfl

theorem Boundary.precedes_step (ho : input.Boundary o)
    (h : input.char? o = .ok (some (c, width))) :
    (input.position o).Precedes (input.position (o + width : Nat)) := by
  rw [ho.position_step h]
  by_cases hc : c = '\n'
  · left
    rw [if_pos hc]
    exact Int.lt_succ _
  · right
    rw [if_neg hc, if_neg hc]
    exact ⟨rfl, Int.lt_succ _⟩

theorem Boundary.precedes_of_reaches (ho : input.Boundary o)
    (h : Relation.ReflTransGen input.Advances o o') :
    o = o' ∨ (input.position o).Precedes (input.position o') := by
  induction h with
  | refl => exact .inl rfl
  | @tail m _ hreach hlast ih =>
    obtain ⟨c, width, hchar, rfl⟩ := hlast
    have hm : input.Boundary m := ho.trans hreach
    have hstep := hm.precedes_step hchar
    rcases ih with rfl | hbefore
    · exact .inr hstep
    · exact .inr (hbefore.trans hstep)

theorem Boundary.precedes (ho : input.Boundary o) (ho' : input.Boundary o') (hlt : o < o') :
    (input.position o).Precedes (input.position o') := by
  rcases Relation.ReflTransGen.total_of_right_unique advances_unique ho ho' with h | h
  · rcases ho.precedes_of_reaches h with rfl | hprecedes
    · exact absurd hlt (Nat.lt_irrefl o)
    · exact hprecedes
  · exact absurd (le_of_reaches h) (Nat.not_le.mpr hlt)

theorem Boundary.eq_of_same (ho : input.Boundary o) (ho' : input.Boundary o')
    (hline : (input.position o).line = (input.position o').line)
    (hcolumn : (input.position o).column = (input.position o').column) : o = o' := by
  rcases Nat.lt_trichotomy o o' with hlt | heq | hlt
  · exact absurd ⟨hline, hcolumn⟩ (ho.precedes ho' hlt).not_same
  · exact heq
  · exact absurd ⟨hline.symm, hcolumn.symm⟩ (ho'.precedes ho hlt).not_same

theorem position_of_neg {offset : Int} (h : offset < 0) :
    input.position offset = input.position 0 := by
  unfold position
  rw [Int.toNat_of_nonpos (Int.le_of_lt h), Int.toNat_zero]

theorem position_of_gt {offset : Int} (h : input.size < offset) :
    input.position offset = input.position input.size := by
  unfold position
  rw [Int.toNat_natCast, Nat.min_self, Nat.min_eq_right (by omega)]

/-- Reading a character moves the position to the next line if it is a newline, and to the next
column if not. So the places between characters have positions that grow with them, and no two of
them have the same. Outside the text the position is that of the nearer end. -/
theorem position_advances (input : Input) :
    (∀ o, input.Boundary o → o < input.size → ∃ c width,
      input.char? o = .ok (some (c, width)) ∧ input.Boundary (o + width) ∧
        (input.position (o + width : Nat)).line =
          (if c = '\n' then (input.position o).line + 1 else (input.position o).line) ∧
        (input.position (o + width : Nat)).column =
          if c = '\n' then 1 else (input.position o).column + 1) ∧
    (∀ o o', input.Boundary o → input.Boundary o' → o < o' →
      (input.position o).Precedes (input.position o')) ∧
    (∀ o o', input.Boundary o → input.Boundary o' →
      (input.position o).line = (input.position o').line →
      (input.position o).column = (input.position o').column → o = o') ∧
    (∀ offset : Int, offset < 0 → input.position offset = input.position 0) ∧
    (∀ offset : Int, input.size < offset → input.position offset = input.position input.size) := by
  refine ⟨?_, fun _ _ => Boundary.precedes, fun _ _ => Boundary.eq_of_same,
    fun _ => position_of_neg, fun _ => position_of_gt⟩
  intro o ho hlt
  obtain ⟨c, width, hchar⟩ := exists_char? hlt
  have hposition := ho.position_step hchar
  exact ⟨c, width, hchar, ho.step hchar, by rw [hposition], by rw [hposition]⟩

/-- The first byte opens a character that the newline cuts off. It is one column wide all the
same, and the newline behind it begins the second line. -/
theorem position_advances_stray :
    ∃ input : Input, input.text = #[0xC3, 10, 97] ∧ input.Boundary 1 ∧ 1 < input.size ∧
      (input.position 1).column = 2 ∧ (input.position 2).line = 2 ∧
        (input.position 2).column = 1 := by
  let input : Input := ⟨[], #[0xC3, 10, 97]⟩
  obtain ⟨hstep, -⟩ := position_advances input
  have hstray : input.char? (0 : Nat) = .ok (some (Utf8.replacement, 1)) := rfl
  have hnewline : input.char? (1 : Nat) = .ok (some ('\n', 1)) := rfl
  have hone : input.Boundary 1 := Boundary.step .refl hstray
  obtain ⟨c, width, hchar, -, hline, hcolumn⟩ := hstep 1 hone (by decide)
  rw [hnewline] at hchar
  cases hchar
  exact ⟨input, rfl, hone, by decide, by decide, hline, hcolumn⟩

end Input

end Backtrack
