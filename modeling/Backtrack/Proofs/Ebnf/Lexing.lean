import Backtrack.Proofs.Ebnf.Spelling
import Backtrack.Proofs.Text.Quoting

/-!
# The tokens of a laid out text

Where lexemes are laid out in a text, the tokens of the text are these lexemes with the end behind
them. The reader of tokens sees characters, so cells are compared with the bytes that they show.
Blanks and letters of ASCII are one byte each; what follows a lexeme is a blank or another lexeme,
which starts with a character that goes on no name and no number.

This module does NOT show anything about texts with comments or numbers in them.
-/

namespace Backtrack.Ebnf

open Text

inductive Shows : List Cell → Bytes → Prop where
  | nil : Shows [] []
  | cons {c : Cell} {rest : List Cell} {t : Bytes} {n : Nat}
      (hread : Utf8.decode? t = some (c.char, n)) (hbytes : c.bytes = t.take n)
      (hrest : Shows rest (t.drop n)) : Shows (c :: rest) t

variable {cells front left rest : List Cell} {c : Cell} {s : Scan} {t u v m : Bytes} {b : UInt8}

theorem shows_layOut (p : Position) (text : Bytes) :
    Shows (layOut p (Utf8.items text)).1 text := by
  induction text using Utf8.chars_induction generalizing p with
  | nil => exact .nil
  | char text c n h ih =>
    rw [Utf8.items_of_strict? h]
    exact .cons (Utf8.decode?_of_strict? h) (Utf8.take_of_strict? h).symm (ih _)
  | stray b rest h ih =>
    rw [Utf8.items_of_stray h]
    exact .cons (Utf8.decode?_of_stray h) rfl (ih _)

theorem Shows.bytes (h : Shows cells t) : cells.flatMap Cell.bytes = t := by
  induction h with
  | nil => rfl
  | cons _ hbytes _ ih => rw [List.flatMap_cons, hbytes, ih, List.take_append_drop]

theorem Shows.eq_nil (h : Shows cells []) : cells = [] := by
  cases h with
  | nil => rfl
  | cons hread => cases hread

/-- The first cell shows the first character. -/
theorem Shows.exists_cons {ch : Char} {n : Nat} (h : Shows cells t)
    (ht : Utf8.decode? t = some (ch, n)) :
    ∃ c rest, cells = c :: rest ∧ c.char = ch ∧ Shows rest (t.drop n) := by
  cases h with
  | nil => cases ht
  | cons hread _ hrest =>
    rw [ht] at hread
    cases hread
    exact ⟨_, _, rfl, rfl, hrest⟩

theorem Shows.exists_ascii (h : Shows cells (b :: t)) (hb : b.toNat < 128) :
    ∃ c rest, cells = c :: rest ∧ c.char = Char.ofNat b.toNat ∧ Shows rest t :=
  h.exists_cons (Utf8.decode?_ascii hb t)

theorem Shows.exists_char {ch : Char} (h : Shows cells (Utf8.encode ch ++ t)) :
    ∃ c rest, cells = c :: rest ∧ c.char = ch ∧ Shows rest t := by
  obtain ⟨c, rest, hcells, hc, hrest⟩ :=
    h.exists_cons (Utf8.decode?_of_strict? (Utf8.strict?_encode ch t))
  rw [List.drop_left] at hrest
  exact ⟨c, rest, hcells, hc, hrest⟩

theorem headNot_wide (hb : b.toNat < 128) (t : Bytes) : HeadNot Utf8.isWide (b :: t) :=
  headNot_cons.mpr (decide_eq_false (Nat.not_le.mpr hb))

/-- Behind a byte of ASCII a new character starts, so cells can be divided there. -/
theorem Shows.split (h : Shows cells (v ++ b :: u)) (hb : b.toNat < 128) :
    ∃ front left, cells = front ++ left ∧ Shows front (v ++ [b]) ∧ Shows left u := by
  generalize ht : v ++ b :: u = t at h
  induction h generalizing v with
  | nil => simp at ht
  | @cons c rest t n hread hbytes hrest ih =>
    subst ht
    by_cases hv : v = []
    · subst hv
      rw [List.nil_append, Utf8.decode?_ascii hb] at hread
      obtain ⟨hc, rfl⟩ := Prod.mk.inj (Option.some.inj hread)
      have hread : Utf8.decode? [b] = some (c.char, 1) := hc ▸ Utf8.decode?_ascii hb []
      exact ⟨[c], rest, rfl, .cons hread hbytes .nil, hrest⟩
    have hdecode := Utf8.decode?_append hv (headNot_wide hb u)
    rw [hdecode] at hread
    have hwidth := (Utf8.decode?_width hread).2
    obtain ⟨front, left, rfl, hfront, hleft⟩ :=
      ih (List.drop_append_of_le_length hwidth).symm
    refine ⟨c :: front, left, rfl, .cons (n := n) ?_ ?_ ?_, hleft⟩
    · rw [Utf8.decode?_append hv (headNot_wide hb []), hread]
    · rw [hbytes, List.take_append_of_le_length hwidth, List.take_append_of_le_length hwidth]
    · rwa [List.drop_append_of_le_length hwidth]

/-- What a reader leaves of some cells: the last of them, which show a given text. -/
structure Leaves (cells : List Cell) (m : Bytes) (r : Left) : Prop where
  suffix : r.1 <:+ cells
  shows : Shows r.1 m

/-- A condition on characters and a kind of bytes that say the same of ASCII. -/
def Agrees (condition : Char → Bool) (kind : UInt8 → Bool) : Prop :=
  ∀ b : UInt8, b.toNat < 128 → condition (Char.ofNat b.toNat) = kind b

def Narrow (kind : UInt8 → Bool) : Prop := ∀ b, kind b = true → b.toNat < 128

variable {condition : Char → Bool} {kind : UInt8 → Bool}

/-- A run of ASCII is passed over up to a character that does not belong to it. -/
theorem skipWhile_run {run : Bytes} (hagrees : Agrees condition kind) (hnarrow : Narrow kind)
    (hrun : run.all kind = true) (h : Shows cells (run ++ m))
    (hend : ∀ ch n, Utf8.decode? m = some (ch, n) → condition ch = false) :
    Leaves cells m (skipWhile condition cells s) := by
  induction run generalizing cells s with
  | nil =>
    have hstop : skipWhile condition cells s = (cells, s) := by
      cases h with
      | nil => rfl
      | cons hread _ _ => rw [skipWhile, hend _ _ hread, if_neg Bool.false_ne_true]
    rw [hstop]
    exact ⟨List.suffix_rfl, h⟩
  | cons b run ih =>
    rw [List.all_cons, Bool.and_eq_true] at hrun
    have hb := hnarrow b hrun.1
    obtain ⟨c, rest, rfl, hc, hrest⟩ := h.exists_ascii hb
    have hcondition : condition c.char = true := by rw [hc, hagrees b hb, hrun.1]
    rw [skipWhile, if_pos hcondition]
    have hleaves := ih (s := s.sees rest) hrun.2 hrest
    exact ⟨hleaves.suffix.trans (List.suffix_cons c rest), hleaves.shows⟩

/-- What the tables of categories say of ASCII. -/
theorem agrees_ascii : Agrees isSeparator isSpaceByte ∧ Agrees isDecimal Bytes.isDigit ∧
    Agrees startsIdentifier isNameStart ∧ Agrees continuesIdentifier isWordByte := by
  have hall : ∀ n, n < 128 →
      isSeparator (Char.ofNat n) = isSpaceByte (UInt8.ofNat n) ∧
      isDecimal (Char.ofNat n) = Bytes.isDigit (UInt8.ofNat n) ∧
      startsIdentifier (Char.ofNat n) = isNameStart (UInt8.ofNat n) ∧
      continuesIdentifier (Char.ofNat n) = isWordByte (UInt8.ofNat n) := by decide +kernel
  have hbyte := fun (b : UInt8) hb => UInt8.ofNat_toNat ▸ hall b.toNat hb
  exact ⟨fun b hb => (hbyte b hb).1, fun b hb => (hbyte b hb).2.1,
    fun b hb => (hbyte b hb).2.2.1, fun b hb => (hbyte b hb).2.2.2⟩

theorem agrees_separator : Agrees isSeparator isSpaceByte := agrees_ascii.1

theorem agrees_nameStart : Agrees startsIdentifier isNameStart := agrees_ascii.2.2.1

theorem agrees_identifier : Agrees continuesIdentifier isWordByte := agrees_ascii.2.2.2

/-- What is read byte by byte is of ASCII; no blank and no start of a name is a digit. -/
theorem narrow_ascii : (Narrow isSpaceByte ∧ Narrow isNameStart ∧ Narrow isWordByte ∧
    Narrow (fun b => (Bytes.hexValue? b).isSome)) ∧
    ∀ b, (isSpaceByte b || isNameStart b) = true → Bytes.isDigit b = false := by
  have hall : ∀ b : UInt8, ((isSpaceByte b = true → b.toNat < 128) ∧
      (isNameStart b = true → b.toNat < 128) ∧ (isWordByte b = true → b.toNat < 128) ∧
      ((Bytes.hexValue? b).isSome = true → b.toNat < 128)) ∧
      ((isSpaceByte b || isNameStart b) = true → Bytes.isDigit b = false) :=
    Bytes.forall_byte (by decide +kernel)
  exact ⟨⟨fun b => (hall b).1.1, fun b => (hall b).1.2.1, fun b => (hall b).1.2.2.1,
    fun b => (hall b).1.2.2.2⟩, fun b => (hall b).2⟩

theorem narrow_space : Narrow isSpaceByte := narrow_ascii.1.1

theorem narrow_nameStart : Narrow isNameStart := narrow_ascii.1.2.1

theorem narrow_word : Narrow isWordByte := narrow_ascii.1.2.2.1

theorem narrow_hexValue? : Narrow (fun b => (Bytes.hexValue? b).isSome) := narrow_ascii.1.2.2.2

/-- A character that starts no other token, and that is the ellipsis if it is not of ASCII. -/
def OnlyMark (c : Char) : Prop :=
  startsIdentifier c = false ∧ isDecimal c = false ∧ c ∉ ['\x22', '\x27', '\x60', '/'] ∧
    (128 ≤ c.toNat → c = '…' ∧ continuesIdentifier c = false)

instance (c : Char) : Decidable (OnlyMark c) := inferInstanceAs (Decidable (_ ∧ _))

theorem onlyMark : ∀ c ∈ marks, OnlyMark c := by
  simp only [marks, List.forall_mem_cons, List.not_mem_nil, false_imp_iff, implies_true, and_true]
  decide +kernel

theorem readQuoted_plain (quote : Char) (count : Nat) (c : Cell) (rest : List Cell) (s : Scan) :
    readQuoted quote .plain count (c :: rest) s =
      if c.char = quote then ((c :: rest, s), count)
      else if c.char = '\n' then ((c :: rest, s.complainHere "literal not terminated"), count)
      else if c.char = '\\' then readQuoted quote .escape count rest (s.sees rest)
      else readQuoted quote .plain (count + 1) rest (s.sees rest) := rfl

/-- Behind a backslash, what leads to no escape is read as any other character. -/
theorem readQuoted_escape (quote : Char) (count : Nat) (c : Cell) (rest : List Cell) (s : Scan) :
    readQuoted quote .escape count (c :: rest) s =
      match escapeState? quote c.char with
      | some (.plain, _) => readQuoted quote .plain (count + 1) rest (s.sees rest)
      | some (.digits base wanted, false) =>
        readQuoted quote (.digits base (wanted - 1)) count rest (s.sees rest)
      | some (next, _) => readQuoted quote next count rest (s.sees rest)
      | none => readQuoted quote .plain (count + 1) (c :: rest)
          (s.complainHere "invalid char escape") := rfl

/-- When an escape has its digits, or meets no digit, the character is read as any other. -/
theorem readQuoted_digits (quote : Char) (base wanted count : Nat) (c : Cell) (rest : List Cell)
    (s : Scan) :
    readQuoted quote (.digits base wanted) count (c :: rest) s =
      if wanted = 0 then readQuoted quote .plain (count + 1) (c :: rest) s
      else if digitValue c.char < base then
        readQuoted quote (.digits base (wanted - 1)) count rest (s.sees rest)
      else readQuoted quote .plain (count + 1) (c :: rest)
        (s.complainHere "invalid char escape") := rfl

/-- From some state a literal in double quotes is read up to the cell in front of what is left. -/
def Closes (state : Quoting) (cells left : List Cell) : Prop :=
  ∀ count s, ∃ c, (readQuoted '\x22' state count cells s).1.1 = c :: left

theorem closes_quote (hc : c.char = '\x22') : Closes .plain (c :: left) left := by
  intro count s
  refine ⟨c, ?_⟩
  rw [readQuoted_plain, if_pos hc]

theorem closes_plain (hc : c.char ≠ '\x22' ∧ c.char ≠ '\n' ∧ c.char ≠ '\\')
    (h : Closes .plain rest left) : Closes .plain (c :: rest) left := by
  intro count s
  rw [readQuoted_plain, if_neg hc.1, if_neg hc.2.1, if_neg hc.2.2]
  exact h _ _

theorem closes_escape (hc : c.char = '\\') (h : Closes .escape rest left) :
    Closes .plain (c :: rest) left := by
  intro count s
  rw [readQuoted_plain, if_neg (by simp [hc]), if_neg (by simp [hc]), if_pos hc]
  exact h _ _

theorem closes_letter {found : Bool} (hc : escapeState? '\x22' c.char = some (.plain, found))
    (h : Closes .plain rest left) : Closes .escape (c :: rest) left := by
  intro count s
  rw [readQuoted_escape, hc]
  exact h _ _

theorem closes_introduced {base wanted : Nat}
    (hc : escapeState? '\x22' c.char = some (.digits base wanted, true))
    (h : Closes (.digits base wanted) rest left) : Closes .escape (c :: rest) left := by
  intro count s
  rw [readQuoted_escape, hc]
  exact h _ _

theorem closes_first {base wanted : Nat}
    (hc : escapeState? '\x22' c.char = some (.digits base (wanted + 1), false))
    (h : Closes (.digits base wanted) rest left) : Closes .escape (c :: rest) left := by
  intro count s
  rw [readQuoted_escape, hc]
  exact h _ _

theorem closes_digit {base wanted : Nat} (hc : digitValue c.char < base)
    (h : Closes (.digits base wanted) rest left) :
    Closes (.digits base (wanted + 1)) (c :: rest) left := by
  intro count s
  rw [readQuoted_digits, if_neg (Nat.succ_ne_zero wanted), if_pos hc]
  exact h _ _

/-- When an escape has its digits, the next character is read as any other. -/
theorem closes_digits_end {base : Nat} (h : Closes .plain (c :: rest) left) :
    Closes (.digits base 0) (c :: rest) left := by
  intro count s
  rw [readQuoted_digits, if_pos rfl]
  exact h _ _

theorem digitValue_ofNat (hb : b.toNat < 128) :
    digitValue (Char.ofNat b.toNat) = (Bytes.hexValue? b).getD 16 := by
  have hc : (Char.ofNat b.toNat).toNat = b.toNat := by
    rw [Char.ofNat, dif_pos (.inl (by omega))]
    rfl
  rw [digitValue, hc, if_pos hb, Utf8.toUInt8_eq rfl]

theorem digitValue_lt {base : Nat} (h : IsDigitOf base b) :
    b.toNat < 128 ∧ digitValue (Char.ofNat b.toNat) < base := by
  obtain ⟨v, hv, hlt⟩ := h
  have hb := narrow_hexValue? b (Option.isSome_of_eq_some hv)
  rw [digitValue_ofNat hb, hv]
  exact ⟨hb, hlt⟩

/-- What stands behind a backslash for one byte: a letter, or the quote that closes a literal. -/
def isShortEscape (c : Char) : Bool := "abfnrtv\\".toList.contains c || c = '\x22'

theorem isShortEscape_byte (b : UInt8) :
    ((letterEscape? b).isSome = true → b.toNat < 128 ∧ isShortEscape (Char.ofNat b.toNat) = true) ∧
    ((Bytes.hexValue? b).any (· < 8) = true → isShortEscape (Char.ofNat b.toNat) = false) := by
  revert b
  exact Bytes.forall_byte (by decide +kernel)

/-- An octal digit is none of the letters of an escape. -/
theorem escapeState?_octal (h : IsDigitOf 8 b) :
    escapeState? '\x22' (Char.ofNat b.toNat) = some (.digits 8 3, false) := by
  obtain ⟨v, hv, hlt⟩ := h
  have hno := (isShortEscape_byte b).2 (by simpa [hv] using hlt)
  rw [isShortEscape] at hno
  rw [escapeState?, hno, if_neg Bool.false_ne_true, if_pos (digitValue_lt ⟨v, hv, hlt⟩).2]

theorem escapeState?_letter {found : UInt8} (h : letterEscape? b = some found) :
    b.toNat < 128 ∧ escapeState? '\x22' (Char.ofNat b.toNat) = some (.plain, true) := by
  obtain ⟨hb, hletter⟩ := (isShortEscape_byte b).1 (by rw [h]; rfl)
  rw [isShortEscape] at hletter
  exact ⟨hb, by rw [escapeState?, if_pos hletter]⟩

theorem closes_digits {ds : Bytes} {base : Nat} (hds : ∀ d ∈ ds, IsDigitOf base d)
    (hshows : Shows cells (ds ++ t)) (ht : t ≠ [])
    (h : ∀ {front}, Shows front t → Closes .plain (front ++ left) left) :
    Closes (.digits base ds.length) (cells ++ left) left := by
  induction ds generalizing cells with
  | nil =>
    cases hshows with
    | nil => exact absurd rfl ht
    | cons hread hbytes hrest => exact closes_digits_end (h (.cons hread hbytes hrest))
  | cons d ds ih =>
    obtain ⟨hd, hds⟩ := List.forall_mem_cons.mp hds
    obtain ⟨hnarrow, hvalue⟩ := digitValue_lt hd
    obtain ⟨c, rest, rfl, hc, hrest⟩ := hshows.exists_ascii hnarrow
    exact closes_digit (hc ▸ hvalue) (ih hds hrest)

/-- A literal that can be decoded is read up to its closing quote. -/
theorem closes_inside (h : Inside t) (hshows : Shows front t) :
    Closes .plain (front ++ left) left := by
  induction h generalizing front with
  | close =>
    obtain ⟨c, rest, rfl, hc, hrest⟩ := hshows.exists_ascii (by decide)
    obtain rfl := hrest.eq_nil
    exact closes_quote hc
  | char hread hchar _ ih =>
    obtain ⟨c, rest, rfl, rfl, hrest⟩ := hshows.exists_cons (Utf8.decode?_of_strict? hread)
    exact closes_plain hchar (ih hrest)
  | stray hread _ ih =>
    obtain ⟨c, rest, rfl, hc, hrest⟩ := hshows.exists_cons (Utf8.decode?_of_stray hread)
    exact closes_plain (hc ▸ by decide) (ih hrest)
  | letter hb _ ih =>
    obtain ⟨c, rest, rfl, hc, hrest⟩ := hshows.exists_ascii (by decide)
    obtain ⟨hnarrow, hstate⟩ := escapeState?_letter hb
    obtain ⟨d, rest, rfl, hd, hrest⟩ := hrest.exists_ascii hnarrow
    exact closes_escape hc (closes_letter (hd ▸ hstate) (ih hrest))
  | @digits lead ds t base wanted hlead hlength hds hinside ih =>
    have ht : t ≠ [] := by
      obtain ⟨front, rfl⟩ := hinside.exists_append
      simp
    obtain ⟨c, rest, rfl, hc, hrest⟩ := hshows.exists_ascii (by decide)
    apply closes_escape hc
    -- Only the octal escape has nothing between the backslash and its first digit.
    cases hlead with
    | octal =>
      obtain ⟨d, ds, rfl⟩ := List.exists_cons_of_length_eq_add_one hlength
      have hd := (List.forall_mem_cons.mp hds).1
      obtain ⟨e, more, rfl, he, hmore⟩ := hrest.exists_ascii (digitValue_lt hd).1
      have hdigits := closes_digits (List.forall_mem_cons.mp hds).2 hmore ht ih
      rw [Nat.succ.inj hlength] at hdigits
      exact closes_first (he ▸ escapeState?_octal hd) hdigits
    | _ =>
      obtain ⟨e, more, rfl, he, hmore⟩ := hrest.exists_ascii (by decide)
      have hdigits := closes_digits hds hmore ht ih
      rw [hlength] at hdigits
      exact closes_introduced (he ▸ by rfl) hdigits

theorem readRaw_body {body : Bytes} (hshows : Shows front (body ++ [96])) (hbody : 96 ∉ body) :
    ∃ c, (readRaw (front ++ left) s).1 = c :: left := by
  generalize ht : body ++ [96] = t at hshows
  induction hshows generalizing body s with
  | nil => simp at ht
  | @cons c rest t n hread hbytes hrest ih =>
    subst ht
    by_cases hnil : body = []
    · subst hnil
      rw [List.nil_append, Utf8.decode?_ascii (by decide)] at hread
      obtain ⟨hc, rfl⟩ := Prod.mk.inj (Option.some.inj hread)
      obtain rfl := Shows.eq_nil hrest
      have hquote : c.char = '\x60' := hc.symm
      refine ⟨c, ?_⟩
      rw [List.singleton_append, readRaw, if_pos hquote]
    rw [Utf8.decode?_append hnil (headNot_wide (by decide) [])] at hread
    have hwidth := (Utf8.decode?_width hread).2
    have hc : c.char ≠ '\x60' := by
      intro hc
      rw [Utf8.cons_of_decode? hread (hc ▸ by decide), hc] at hbody
      exact hbody List.mem_cons_self
    rw [List.cons_append, readRaw, if_neg hc]
    exact ih (fun h => hbody (List.mem_of_mem_drop h)) (List.drop_append_of_le_length hwidth).symm

/-- What the first character of a text can be where lexemes are laid out: it is no digit, and the
only character outside ASCII is the ellipsis. -/
def FirstOk (t : Bytes) : Prop :=
  ∀ ch n, Utf8.decode? t = some (ch, n) → isDecimal ch = false ∧ (128 ≤ ch.toNat → ch = '…')

theorem firstOk_ascii (hb : b.toNat < 128) (hdigit : Bytes.isDigit b = false) :
    FirstOk (b :: t) := by
  intro ch n hread
  rw [Utf8.decode?_ascii hb] at hread
  obtain ⟨rfl, rfl⟩ := Prod.mk.inj (Option.some.inj hread)
  refine ⟨(agrees_ascii.2.1 b hb).trans hdigit, fun hwide => ?_⟩
  rw [Char.ofNat, dif_pos (.inl (by omega))] at hwide
  exact absurd hb (Nat.not_lt.mpr hwide)

theorem Lexeme.Proper.firstOk {l : Lexeme} (hl : l.Proper) : FirstOk (l.text ++ m) := by
  cases hl with
  | name h =>
    cases h with
    | @mk b rest hb hrest =>
      exact firstOk_ascii (narrow_nameStart b hb) (narrow_ascii.2 b (by rw [hb, Bool.or_true]))
  | quoted h => cases h <;> exact firstOk_ascii (by decide) (by decide)
  | @mark c hc =>
    intro ch n hread
    rw [Lexeme.mark, Utf8.decode?_of_strict? (Utf8.strict?_encode c m)] at hread
    obtain ⟨rfl, rfl⟩ := Prod.mk.inj (Option.some.inj hread)
    obtain ⟨_, hdigit, _, hwide⟩ := onlyMark _ hc
    exact ⟨hdigit, fun h => (hwide h).1⟩

theorem firstOk_of_laid {ls : List Lexeme} (h : Laid ls (skip m) []) : FirstOk m := by
  obtain ⟨before, hbefore, hm⟩ := exists_blanks m
  cases before with
  | cons b before =>
    rw [List.all_cons, Bool.and_eq_true] at hbefore
    rw [hm]
    exact firstOk_ascii (narrow_space b hbefore.1)
      (narrow_ascii.2 b (by rw [hbefore.1, Bool.true_or]))
  | nil =>
    rw [List.nil_append] at hm
    rw [hm]
    generalize hskip : skip m = t at h
    cases h with
    | nil => nofun
    | cons hl hs _ _ =>
      rw [← hskip, skip_skip, hskip] at hs
      rw [hs]
      exact hl.firstOk

theorem FirstOk.headIs (hm : FirstOk m) (h : Shows cells m) : headIs isDecimal cells = false := by
  cases h with
  | nil => rfl
  | cons hread _ _ => exact (hm _ _ hread).1

theorem continuesIdentifier_of_firstOk (hm : FirstOk m) (hend : HeadNot isWordByte m) (ch : Char)
    (n : Nat) (hread : Utf8.decode? m = some (ch, n)) : continuesIdentifier ch = false := by
  rcases Utf8.decode?_cases hread with ⟨b, rest, rfl, hb, rfl, _⟩ | ⟨hwide, _⟩
  · rw [agrees_identifier b hb, headNot_cons.mp hend]
  · obtain rfl := (hm ch n hread).2 hwide
    exact ((onlyMark '…' (by decide)).2.2.2 hwide).2

theorem readToken_mark (hc : c.char ∈ marks) (hpoint : headIs isDecimal rest = false) :
    readToken c rest s = (some (.mark c.char), rest, s.sees rest) := by
  obtain ⟨hstart, hdigit, hno, _⟩ := onlyMark _ hc
  rw [readToken, hstart, hdigit]
  dsimp only
  rw [if_neg Bool.false_ne_true, if_neg Bool.false_ne_true]
  split
  · rename_i heq
    simp [heq] at hno
  · rename_i heq
    simp [heq] at hno
  · rename_i heq
    simp [heq] at hno
  · rename_i heq
    rw [hpoint, heq, if_neg Bool.false_ne_true]
  · rename_i heq
    simp [heq] at hno
  · rfl

/-- Where a name starts, it is read up to its end. -/
theorem readToken_name {run : Bytes} (hb : isNameStart b = true) (hrun : run.all isWordByte = true)
    (h : Shows (c :: rest) (b :: run ++ m)) (hend : HeadNot isWordByte m) (hm : FirstOk m) :
    (readToken c rest s).1 = some .identifier ∧ Leaves (c :: rest) m (readToken c rest s).2 := by
  have hnarrow := narrow_nameStart b hb
  obtain ⟨d, more, hcons, hd, hmore⟩ := h.exists_ascii hnarrow
  cases hcons
  have hstart : startsIdentifier c.char = true := by rw [hd, agrees_nameStart b hnarrow, hb]
  have hleaves := skipWhile_run (s := s.sees rest) agrees_identifier narrow_word hrun hmore
    (continuesIdentifier_of_firstOk hm hend)
  rw [readToken, if_pos hstart]
  exact ⟨rfl, hleaves.suffix.trans (List.suffix_cons c rest), hleaves.shows⟩

theorem readToken_double {inside : Bytes} (hinside : Inside inside)
    (h : Shows (c :: rest) (34 :: inside ++ m)) :
    (readToken c rest s).1 = some .string ∧ Leaves (c :: rest) m (readToken c rest s).2 := by
  obtain ⟨body, hbody⟩ := hinside.exists_append
  obtain ⟨d, more, hcons, hd, hmore⟩ := h.exists_ascii (by decide)
  cases hcons
  have hquote : c.char = '\x22' := hd
  rw [hbody, List.append_eq, List.append_assoc, List.singleton_append] at hmore
  obtain ⟨front, left, rfl, hfront, hleft⟩ := hmore.split (by decide)
  have hstart : startsIdentifier '\x22' = false := agrees_nameStart 34 (by decide)
  have hcloses : Closes .plain (front ++ left) left := closes_inside hinside (hbody ▸ hfront)
  obtain ⟨e, he⟩ := hcloses 0 (s.sees (front ++ left))
  rw [readToken, hquote, hstart, if_neg Bool.false_ne_true, if_neg (by decide)]
  dsimp only
  rw [skipOne, he]
  exact ⟨rfl, (List.suffix_append front left).trans (List.suffix_cons c _), hleft⟩

theorem readToken_back {inside value : Bytes} (hinside : unquote? (96 :: inside) = some value)
    (h : Shows (c :: rest) (96 :: inside ++ m)) :
    (readToken c rest s).1 = some .raw ∧ Leaves (c :: rest) m (readToken c rest s).2 := by
  obtain ⟨body, rfl, hbody⟩ := body_of_unquote hinside
  obtain ⟨d, more, hcons, hd, hmore⟩ := h.exists_ascii (by decide)
  cases hcons
  have hquote : c.char = '\x60' := hd
  rw [List.append_eq, List.append_assoc, List.singleton_append] at hmore
  obtain ⟨front, left, rfl, hfront, hleft⟩ := hmore.split (by decide)
  have hstart : startsIdentifier '\x60' = false := agrees_nameStart 96 (by decide)
  obtain ⟨e, he⟩ : ∃ e, (readRaw (front ++ left) (s.sees (front ++ left))).1 = e :: left :=
    readRaw_body hfront hbody
  rw [readToken, hquote, hstart, if_neg Bool.false_ne_true, if_neg (by decide)]
  dsimp only
  rw [skipOne, he]
  exact ⟨rfl, (List.suffix_append front left).trans (List.suffix_cons c _), hleft⟩

/-- A token is read as the lexeme that stands there. -/
theorem readToken_lexeme {l : Lexeme} (hl : l.Proper) (h : Shows (c :: rest) (l.text ++ m))
    (hend : l.kind = .identifier → HeadNot isWordByte m) (hm : FirstOk m) :
    (readToken c rest s).1 = some l.kind ∧ Leaves (c :: rest) m (readToken c rest s).2 := by
  cases hl with
  | name hname =>
    cases hname with
    | mk hb hrun => exact readToken_name hb hrun h (hend rfl) hm
  | quoted hquoted =>
    cases hquoted with
    | double hvalue => exact readToken_double (inside_of_unquote hvalue) h
    | back hvalue => exact readToken_back hvalue h
  | @mark ch hch =>
    obtain ⟨d, left, hcons, rfl, hleft⟩ := h.exists_char
    cases hcons
    rw [readToken_mark hch (hm.headIs hleft)]
    exact ⟨rfl, List.suffix_cons _ _, hleft⟩

variable {ls : List Lexeme}

/-- The text of a token is what was read. -/
theorem Leaves.text {r : Left} {token : Bytes} (h : Leaves cells m r)
    (hcells : Shows cells (token ++ m)) :
    (cells.take (cells.length - r.1.length)).flatMap Cell.bytes = token := by
  obtain ⟨front, hfront⟩ := h.suffix
  have hbytes := hcells.bytes
  rw [← hfront, List.flatMap_append, h.shows.bytes] at hbytes
  rw [← hfront, List.length_append, Nat.add_sub_cancel, List.take_left]
  exact List.append_cancel_right hbytes

theorem Leaves.length_lt {r : Left} {token : Bytes} (h : Leaves cells m r)
    (hcells : Shows cells (token ++ m)) (htoken : token ≠ []) : r.1.length < cells.length := by
  apply Nat.lt_of_le_of_ne h.suffix.length_le
  intro hlength
  have htext := h.text hcells
  rw [hlength, Nat.sub_self] at htext
  exact htoken htext.symm

theorem skipWhile_separators (hcells : Shows cells m) :
    Leaves cells (skip m) (skipWhile isSeparator cells s) := by
  have hblanks : (m.takeWhile isSpaceByte).all isSpaceByte = true := List.all_takeWhile
  apply skipWhile_run agrees_separator narrow_space hblanks
  · rwa [skip, List.takeWhile_append_dropWhile]
  · intro ch n hread
    rcases Utf8.decode?_cases hread with ⟨b, rest, hskip, hb, rfl, _⟩ | ⟨hwide, _⟩
    · have hhead := headNot_skip m
      rw [hskip] at hhead
      rw [agrees_separator b hb, headNot_cons.mp hhead]
    · have hseparator : isSeparator ch = true → ch.toNat < 128 := by
        simp only [isSeparator, Bool.or_eq_true, decide_eq_true_eq]
        rintro (((rfl | rfl) | rfl) | rfl) <;> decide
      exact Bool.eq_false_iff.mpr fun h => absurd (hseparator h) (Nat.not_lt.mpr hwide)

theorem readTokens_lexemes {ending : Position} {fuel : Nat} (h : Laid ls (skip m) [])
    (hcells : Shows cells m) (hfuel : cells.length < fuel) :
    (readTokens ending fuel cells s).1.map Token.lexeme = ls ++ [⟨.ending, []⟩] := by
  induction ls generalizing m cells fuel s with
  | nil =>
    obtain ⟨fuel, rfl⟩ := Nat.exists_eq_add_one_of_ne_zero (Nat.ne_zero_of_lt hfuel)
    have hleaves := skipWhile_separators (s := s) hcells
    generalize hskip : skip m = t at h hleaves
    cases h
    rw [readTokens]
    generalize skipWhile isSeparator cells s = r at hleaves
    obtain ⟨left, s'⟩ := r
    obtain rfl : left = [] := hleaves.shows.eq_nil
    rfl
  | cons l ls ih =>
    obtain ⟨fuel, rfl⟩ := Nat.exists_eq_add_one_of_ne_zero (Nat.ne_zero_of_lt hfuel)
    have hleaves := skipWhile_separators (s := s) hcells
    generalize hskip : skip m = t at h hleaves
    cases h with
    | @cons _ _ _ m' _ hl hs hend hrest =>
      rw [← hskip, skip_skip, hskip] at hs
      subst hs
      rw [readTokens]
      generalize skipWhile isSeparator cells s = r at hleaves
      obtain ⟨left, s'⟩ := r
      cases left with
      | nil =>
        have hempty := hleaves.shows.bytes
        exact absurd (List.append_eq_nil_iff.mp hempty.symm).1 hl.ne_nil
      | cons c rest =>
        have hshows : Shows (c :: rest) (l.text ++ m') := hleaves.shows
        have hread := readToken_lexeme (s := { s' with current := some c.position }) hl hshows hend
          (firstOk_of_laid hrest)
        dsimp only
        generalize readToken c rest { s' with current := some c.position } = r at hread
        obtain ⟨kind, left, s''⟩ := r
        obtain ⟨rfl, hleft⟩ : kind = some l.kind ∧ Leaves (c :: rest) m' (left, s'') := hread
        have htext := hleft.text hshows
        have hlt : left.length < (c :: rest).length := hleft.length_lt hshows hl.ne_nil
        have hle := hleaves.suffix.length_le
        dsimp only [List.length_cons] at htext hlt hle ⊢
        have hbound : left.length < fuel := by omega
        rw [List.map_cons, htext, ih hrest hleft.shows hbound]
        rfl

/-- The tokens of a text are the lexemes that are laid out in it. -/
theorem tokensOf_lexemes (filename : Bytes) {text : Bytes} (h : Laid ls (skip text) []) :
    (tokensOf filename text).1.map Token.lexeme = ls ++ [⟨.ending, []⟩] := by
  have hshows := shows_layOut { filename := filename, line := 1, column := 1 } text
  rw [tokensOf]
  generalize layOut _ _ = r at hshows
  obtain ⟨cells, ending⟩ := r
  have hmark : headIs (· = '\uFEFF') cells = false := by
    cases hshows with
    | nil => rfl
    | @cons c _ _ _ hread _ _ =>
      apply decide_eq_false
      intro hc
      have hwide := ((firstOk_of_laid h) _ _ hread).2 (hc ▸ by decide)
      rw [hc] at hwide
      exact absurd hwide (by decide)
  dsimp only
  rw [hmark, if_neg Bool.false_ne_true]
  exact readTokens_lexemes h hshows (Nat.lt_succ_self _)

end Backtrack.Ebnf
