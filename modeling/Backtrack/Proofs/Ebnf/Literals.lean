import Backtrack.Proofs.Ebnf.Trees
import Backtrack.Proofs.Regex.Runs
import Backtrack.Proofs.Text.Quoting

/-!
# Reading quoted literals

A literal that stands for a text is matched by the pattern of quoted texts up to its closing quote,
whatever stands behind it. The pattern takes a whole character at a time, or a backslash with the
character behind it, and knows nothing of the digits of an escape; so what matters of a literal in
double quotes is only which of its bytes are quotes and backslashes.
-/

namespace Backtrack.Ebnf.Tree

open Regex Text

variable {t u : Bytes}

/-- Bytes up to a closing double quote and then a given text. Another quote may only stand behind a
backslash. -/
inductive UpToQuote (u : Bytes) : Bytes → Prop where
  | close : UpToQuote u (34 :: u)
  | plain {b : UInt8} {t : Bytes} (hb : b ≠ 34 ∧ b ≠ 92) (hrest : UpToQuote u t) :
    UpToQuote u (b :: t)
  | escape {b : UInt8} {t : Bytes} (hb : b.toNat < 128 ∧ b ≠ 10) (hrest : UpToQuote u t) :
    UpToQuote u (92 :: b :: t)

theorem plain_of_wide {b : UInt8} (hb : 128 ≤ b.toNat) : b ≠ 34 ∧ b ≠ 92 := by
  constructor
  · rintro rfl
    exact absurd hb (by decide)
  · rintro rfl
    exact absurd hb (by decide)

theorem UpToQuote.suffix (h : UpToQuote u t) : 34 :: u <:+ t := by
  induction h with
  | close => exact List.suffix_rfl
  | plain _ _ ih => exact ih.trans (List.suffix_cons _ _)
  | escape _ _ ih => exact ih.trans ((List.suffix_cons _ _).trans (List.suffix_cons _ _))

theorem UpToQuote.append {run : Bytes} (hrun : ∀ b ∈ run, b ≠ 34 ∧ b ≠ 92) (h : UpToQuote u t) :
    UpToQuote u (run ++ t) := by
  induction run with
  | nil => exact h
  | cons b run ih =>
    obtain ⟨hb, hrun⟩ := List.forall_mem_cons.mp hrun
    exact .plain hb (ih hrun)

/-- A character outside ASCII in front of a closing quote ends in front of it. -/
theorem UpToQuote.drop (h : UpToQuote u t) {n : Nat} (hn : n ≤ t.length)
    (hwide : ∀ b ∈ t.take n, 128 ≤ b.toNat) : UpToQuote u (t.drop n) := by
  induction h generalizing n with
  | close =>
    cases n with
    | zero => exact .close
    | succ n => exact absurd (hwide 34 List.mem_cons_self) (by decide)
  | plain hb hrest ih =>
    cases n with
    | zero => exact .plain hb hrest
    | succ n =>
      exact ih (Nat.le_of_succ_le_succ hn) fun c hc => hwide c (List.mem_cons_of_mem _ hc)
  | escape hb hrest =>
    cases n with
    | zero => exact .escape hb hrest
    | succ n => exact absurd (hwide 92 List.mem_cons_self) (by decide)

theorem escape_of_letter {b c : UInt8} (h : letterEscape? b = some c) :
    b.toNat < 128 ∧ b ≠ 10 := by
  have hall : ∀ b : UInt8, (letterEscape? b).isSome = true → b.toNat < 128 ∧ b ≠ 10 :=
    Bytes.forall_byte (by decide +kernel)
  exact hall b (Option.isSome_of_eq_some h)

theorem of_isDigitOf {base : Nat} {b : UInt8} (h : IsDigitOf base b) :
    (b.toNat < 128 ∧ b ≠ 10) ∧ b ≠ 34 ∧ b ≠ 92 := by
  have hall : ∀ b : UInt8, (Bytes.hexValue? b).isSome = true →
      (b.toNat < 128 ∧ b ≠ 10) ∧ b ≠ 34 ∧ b ≠ 92 := Bytes.forall_byte (by decide +kernel)
  obtain ⟨v, hv, _⟩ := h
  exact hall b (Option.isSome_of_eq_some hv)

/-- The bytes of a character other than a quote and a backslash are other than these. -/
theorem plain_of_strict? {c : Char} {n : Nat} (h : Utf8.strict? t = some (c, n))
    (hc : c ≠ '\x22' ∧ c ≠ '\\') : ∀ b ∈ t.take n, b ≠ 34 ∧ b ≠ 92 := by
  cases t with
  | nil => cases h
  | cons d t =>
    rcases Nat.lt_or_ge d.toNat 128 with hd | hd
    · rw [Utf8.strict?_ascii hd] at h
      obtain ⟨rfl, rfl⟩ := Prod.mk.inj (Option.some.inj h)
      simp only [List.take_succ_cons, List.take_zero, List.mem_singleton]
      rintro b rfl
      constructor
      · rintro rfl
        exact hc.1 rfl
      · rintro rfl
        exact hc.2 rfl
    · exact fun b hb => plain_of_wide ((Utf8.strict?_wide hd h).2 b hb)

theorem upToQuote_of_inside (h : Inside t) : UpToQuote u (t ++ u) := by
  induction h with
  | close => exact .close
  | @char t c n hread hchar _ ih =>
    rw [← List.take_append_drop n t, List.append_assoc]
    exact ih.append (plain_of_strict? hread ⟨hchar.1, hchar.2.2⟩)
  | @stray b rest hread _ ih =>
    have hb : 128 ≤ b.toNat := by
      apply Nat.le_of_not_lt
      intro hb
      rw [Utf8.strict?_ascii hb] at hread
      cases hread
    exact .plain (plain_of_wide hb) ih
  | letter hb _ ih => exact .escape (escape_of_letter hb) ih
  | @digits lead ds rest base wanted hlead hlength hds _ ih =>
    have hrun : ∀ d ∈ ds, d ≠ 34 ∧ d ≠ 92 := fun d hd => (of_isDigitOf (hds d hd)).2
    rw [List.cons_append, List.append_assoc, List.append_assoc]
    have hdigits : UpToQuote u (ds ++ (rest ++ u)) := ih.append hrun
    -- Only the octal escape has a digit directly behind the backslash.
    cases hlead with
    | byte | short | long => exact .escape (by decide) hdigits
    | octal =>
      obtain ⟨d, ds, rfl⟩ := List.exists_cons_of_length_eq_add_one hlength
      exact .escape (of_isDigitOf (hds d List.mem_cons_self)).1
        (ih.append fun b hb => hrun b (List.mem_cons_of_mem d hb))

section Pattern

variable {β : Type} {text : Array UInt8} {start : Nat} {k : Bytes → Option β} {x : β} {b : UInt8}

/-- The characters that stand for themselves in double quotes. -/
def plainClass : CharClass := .complement (.ofString "\"\\")

def textItem : Regex :=
  .alt (.seq (.chars (.single '\\')) (.chars .notNewline)) (.chars plainClass)

theorem textPattern_eq : textPattern = .seq (.check .beginText) (.alt
    (.seq (.seq (.chars (.single '\x22')) (.star true textItem)) (.chars (.single '\x22')))
    (between '\x60')) := rfl

theorem contains_text (b : UInt8) :
    (plainClass.contains b.toNat = true ↔ b ≠ 34 ∧ b ≠ 92) ∧
      (b.toNat < 128 ∧ b ≠ 10 → CharClass.notNewline.contains b.toNat = true) := by
  revert b
  exact Bytes.forall_byte (by decide +kernel)

theorem broad_plainClass : Broad plainClass := broad_complement (narrow_ranges (by decide))

/-- A backslash does not stand for itself, so an item matches in one way only. -/
theorem single_textItem : textItem.Single text start := by
  apply ((single_chars _).seq (single_chars _)).alt (single_chars _)
  rintro p q q' ⟨m, ⟨c, width, hat, hbackslash, _⟩, _⟩ ⟨c', width', hat', hplain, _⟩
  rw [hat] at hat'
  cases hat'
  rw [contains_single.mp hbackslash] at hplain
  exact absurd hplain (by decide)

theorem tries_textItem (hb : b ≠ 92) (ht : b :: t <:+ text.toList) :
    tries text start textItem (b :: t) k = tries text start (.chars plainClass) (b :: t) k := by
  have hbackslash : ∀ k : Bytes → Option β,
      tries text start (.chars (.single '\\')) (b :: t) k = none := by
    intro k
    rw [tries_narrow (narrow_single (by decide)) ht, if_neg]
    rw [contains_single]
    exact fun heq => hb (UInt8.toNat_inj.mp heq)
  rw [textItem, tries_alt, tries_seq, hbackslash, Option.none_or]

/-- The pattern takes everything up to the closing quote, if one can go on behind. -/
theorem tries_textItems (h : UpToQuote u t) (ht : t <:+ text.toList)
    (hk : k (34 :: u) = some x) :
    tries text start (.star true textItem) t k = some x := by
  induction hn : t.length using Nat.strongRecOn generalizing t with
  | _ n ih =>
    rw [tries_star single_textItem rfl ht]
    cases h with
    | close =>
      have hquote : plainClass.contains 34 = false := by decide
      have hascii : (34 : UInt8).toNat < 128 := by decide
      rw [tries_textItem (by decide) ht, tries_chars_ascii ht hascii]
      exact Option.or_eq_some_iff.mpr (.inr ⟨by simp [hquote], hk⟩)
    | @plain b t hb hrest =>
      rw [List.length_cons] at hn
      apply Option.or_eq_some_iff.mpr (.inl ?_)
      rw [tries_textItem hb.2 ht]
      rcases Nat.lt_or_ge b.toNat 128 with hascii | hwide
      · rw [tries_chars_ascii ht hascii, if_pos ((contains_text b).1.mpr hb)]
        exact ih _ (by omega) hrest ((List.suffix_cons b t).trans ht) rfl
      · -- The class takes a whole character here, of which `b` is only the first byte.
        obtain ⟨m, hpos, hm, htake, htries⟩ := tries_chars_wide
          (k := fun v => tries text start (.star true textItem) v k) broad_plainClass ht hwide
        rw [htries, if_pos rfl]
        have hdrop : UpToQuote u ((b :: t).drop m) := UpToQuote.drop (.plain hb hrest) hm htake
        have hlength : ((b :: t).drop m).length < n := by
          rw [List.length_drop, List.length_cons]
          omega
        exact ih _ hlength hdrop ((List.drop_suffix m _).trans ht) rfl
    | @escape b t hb hrest =>
      simp only [List.length_cons] at hn
      have ht' := (List.suffix_cons 92 _).trans ht
      have hrest := ih t.length (by omega) hrest ((List.suffix_cons b t).trans ht') rfl
      apply Option.or_eq_some_iff.mpr (.inl ?_)
      rw [textItem, tries_alt, tries_seq]
      apply Option.or_eq_some_iff.mpr (.inl ?_)
      have hbackslash : (CharClass.single '\\').contains (UInt8.toNat 92) = true := by decide
      rw [tries_narrow (narrow_single (by decide)) ht, if_pos hbackslash,
        tries_chars_ascii ht' hb.1, if_pos ((contains_text b).2 hb)]
      exact hrest

theorem tries_text {value : Bytes} {l : Lexeme} (h : Quoted value l)
    (ht : l.text ++ u <:+ text.toList) (hk : k u = some x) :
    tries text (placeOf text (l.text ++ u)) textPattern (l.text ++ u) k = some x := by
  rw [textPattern_eq, tries_anchor ht, tries_alt]
  cases h with
  | @double inside hvalue =>
    have hinside : UpToQuote u (inside ++ u) := upToQuote_of_inside (inside_of_unquote hvalue)
    have ht' : inside ++ u <:+ text.toList := (List.suffix_cons 34 _).trans ht
    have hquote : (34 : UInt8) :: u <:+ text.toList := hinside.suffix.trans ht'
    apply Option.or_eq_some_iff.mpr (.inl ?_)
    rw [tries_seq, tries_seq]
    refine (tries_single (c := '\x22') (by decide) ht).trans (tries_textItems hinside ht' ?_)
    exact (tries_single (c := '\x22') (by decide) hquote).trans hk
  | @back inside hvalue =>
    obtain ⟨body, rfl, hbody⟩ := body_of_unquote hvalue
    apply Option.or_eq_some_iff.mpr (.inr ⟨?_, tries_between (by decide) ht hbody hk⟩)
    rw [tries_seq, tries_seq]
    apply Option.eq_none_iff_forall_ne_some.mpr
    intro y hy
    obtain ⟨_, hcons, _⟩ := of_tries_single (by decide) ht hy
    exact absurd (List.cons.inj hcons).1 (by decide)

end Pattern

theorem unquote_of_quoted {value : Bytes} {l : Lexeme} (h : Quoted value l) :
    unquote l.text = .ok value := by
  cases h with
  | double h | back h => rw [unquote, h]

/-- A literal is read where it stands. -/
theorem reads_text {rd : Backtrack.Reader Rule.type} {s m value : Bytes} {l : Lexeme}
    (h : Quoted value l) (hs : s <:+ rd.bytes) (hskip : skip s = l.text ++ m) :
    rd.Reads text s value (skip m) := by
  have hsuffix : l.text ++ m <:+ rd.bytes := hskip ▸ (skip_suffix s).trans hs
  have htries := tries_text h hsuffix (k := some) rfl
  rw [← hskip] at htries hsuffix
  refine Backtrack.Reader.reads_trim.mpr ⟨hs, m, Backtrack.Reader.reads_mapErr.mpr ?_, rfl⟩
  exact ⟨l.text, (Backtrack.Reader.reads_pattern rfl).mpr ⟨hsuffix, hskip, htries⟩,
    unquote_of_quoted h⟩

end Backtrack.Ebnf.Tree
