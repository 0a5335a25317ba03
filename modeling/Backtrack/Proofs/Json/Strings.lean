import Backtrack.Json.Grammar
import Backtrack.Proofs.Json.Language
import Backtrack.Proofs.Regex.Preference

/-!
# Strings in JSON

The pattern of strings matches items in quotes only, and it matches them up to the closing quote.
What is computed from a string is the text that its items stand for.
-/

namespace Backtrack.Json

open Regex Text

variable {β : Type} {text : Array UInt8} {start : Nat} {t u : Bytes} {k : Bytes → Option β} {x : β}

def plainClass : CharClass :=
  .complement (.ranges [(0x22, 0x22), (0, 0x1F), (0x7F, 0x7F), (0x5C, 0x5C)])

/-- The class of the characters that name another one behind a backslash. -/
def shortClass : CharClass := .ofString "\\\"/bfnrt"

def hexClass : CharClass := .ranges [(97, 102), (65, 70), (48, 57)]

def backslash : Regex := .chars (.single '\\')

def unitPattern : Regex :=
  .seq (.seq backslash (.chars (.single 'u'))) (.count true 4 (some 4) (.chars hexClass))

def quote : Regex := .chars (.single '\x22')

theorem stringItem_eq : stringItem =
    .alt (.chars plainClass) (.alt (.seq backslash (.chars shortClass)) unitPattern) := rfl

theorem stringPattern_eq : stringPattern =
    .seq (.seq (.seq (.check .beginText) quote) (.star true stringItem)) quote := rfl

theorem contains_plain {b : UInt8} (hb : b.toNat < 128) :
    plainClass.contains b.toNat = isPlain b := by
  have hall : ∀ b : UInt8, b.toNat < 128 → plainClass.contains b.toNat = isPlain b :=
    Bytes.forall_byte (by decide +kernel)
  exact hall b hb

theorem isPlain_wide {b : UInt8} (hb : 128 ≤ b.toNat) : isPlain b = true := by
  have hall : ∀ b : UInt8, 128 ≤ b.toNat → isPlain b = true :=
    Bytes.forall_byte (by decide +kernel)
  exact hall b hb

def isPlainChar (c : Char) : Bool :=
  32 ≤ c.toNat && c.toNat ≠ 127 && c ≠ '\x22' && c ≠ '\\'

theorem isPlain_ascii {b : UInt8} (hb : b.toNat < 128) :
    isPlain b = isPlainChar (Char.ofNat b.toNat) := by
  have hall : ∀ b : UInt8, b.toNat < 128 → isPlain b = isPlainChar (Char.ofNat b.toNat) :=
    Bytes.forall_byte (by decide +kernel)
  exact hall b hb

theorem isPlainChar_wide {c : Char} (hc : 128 ≤ c.toNat) : isPlainChar c = true := by
  have hne : ∀ {d : Char}, d.toNat < 128 → c ≠ d := by
    rintro d hd rfl
    omega
  simp only [isPlainChar, Bool.and_eq_true, decide_eq_true_eq]
  exact ⟨⟨⟨by omega, by omega⟩, hne (by decide)⟩, hne (by decide)⟩

theorem all_isPlain_itemsFrom (skip : Nat) (t : Bytes) (hskip : ∀ b ∈ t.take skip, 128 ≤ b.toNat) :
    t.all isPlain = (Utf8.itemsFrom skip t).all fun i => isPlainChar i.char := by
  fun_induction Utf8.itemsFrom skip t with
  | case1 => rfl
  | case2 skip b rest ih =>
    rw [List.take_succ_cons] at hskip
    rw [List.all_cons, isPlain_wide (hskip b List.mem_cons_self), Bool.true_and]
    exact ih fun c hc => hskip c (List.mem_cons_of_mem b hc)
  | case3 b rest c n hread ih =>
    rw [List.all_cons, List.all_cons]
    rcases Nat.lt_or_ge b.toNat 128 with hb | hb
    · rw [Utf8.strict?_ascii hb] at hread
      cases hread
      rw [isPlain_ascii hb, ih (by simp)]
    · obtain ⟨hc, hwide⟩ := Utf8.strict?_wide hb hread
      obtain ⟨m, rfl⟩ := Nat.exists_eq_add_of_lt (Utf8.strict?_width hread).1
      rw [Nat.zero_add, List.take_succ_cons] at hwide
      rw [isPlain_wide hb, isPlainChar_wide hc]
      rw [Nat.zero_add, Nat.add_sub_cancel] at ih
      rw [Nat.zero_add, Nat.add_sub_cancel]
      rw [ih fun x hx => hwide x (List.mem_cons_of_mem b hx)]
  | case4 b rest hread ih =>
    have hb : 128 ≤ b.toNat := by
      rcases Nat.lt_or_ge b.toNat 128 with hlt | hge
      · rw [Utf8.strict?_ascii hlt] at hread
        cases hread
      · exact hge
    rw [List.all_cons, List.all_cons, isPlain_wide hb, ih (by simp)]
    rfl

/-- Some bytes stand for themselves exactly if all their characters are other than a control
character, a quote and a backslash. -/
theorem all_isPlain (t : Bytes) : t.all isPlain = (Utf8.chars t).all isPlainChar := by
  rw [Utf8.chars, Utf8.items, List.all_map]
  exact all_isPlain_itemsFrom 0 t (by simp)

theorem plainClass_wide (n : Nat) (hn : 128 ≤ n) : plainClass.contains n = true := by
  simp only [plainClass, CharClass.contains, Bool.not_eq_true', List.any_eq_false,
    Bool.and_eq_true, decide_eq_true_eq, not_and, Nat.not_le]
  intro i hi _
  have hhigh : ∀ i ∈ [(0x22, 0x22), (0, 0x1F), (0x7F, 0x7F), (0x5C, 0x5C)], i.2 < 128 := by decide
  have := hhigh i hi
  omega

theorem contains_short (b : UInt8) :
    shortClass.contains b.toNat = (shortEscape? b).isSome := by
  revert b
  exact Bytes.forall_byte (by decide +kernel)

theorem contains_hex (b : UInt8) : hexClass.contains b.toNat = isHex b := by
  revert b
  exact Bytes.forall_byte (by decide +kernel)

theorem narrow_short : Narrow shortClass := narrow_ranges (by decide)

theorem narrow_hex : Narrow hexClass := narrow_ranges (by decide)

/-- The three kinds of items begin in different ways, so an item matches in one way only. -/
theorem single_stringItem : stringItem.Single text start := by
  have hunit : unitPattern.Single text start :=
    ((single_chars _).seq (single_chars _)).seq ((single_chars _).count true 4)
  rw [stringItem_eq]
  refine (single_chars _).alt (((single_chars _).seq (single_chars _)).alt hunit ?_) ?_
  · rintro p q q' ⟨m, ⟨ch, width, hat, _, rfl⟩, ch₂, width₂, hat₂, hshort, _⟩
      ⟨_, ⟨m', ⟨ch', width', hat', _, rfl⟩, ch₂', width₂', hat₂', hu, _⟩, _⟩
    rw [hat] at hat'
    cases hat'
    rw [hat₂] at hat₂'
    cases hat₂'
    rw [contains_single.mp hu] at hshort
    exact absurd hshort (by decide)
  · rintro p q q' ⟨ch, width, hat, hplain, _⟩ (⟨_, ⟨ch', width', hat', hback, _⟩, _⟩ |
      ⟨_, ⟨_, ⟨ch', width', hat', hback, _⟩, _⟩, _⟩)
    all_goals
      rw [hat] at hat'
      cases hat'
      rw [contains_single.mp hback] at hplain
      exact absurd hplain (by decide)

/-- Bytes that stand for themselves are items, whatever items come behind them. -/
theorem exists_plain {s : Bytes} (h : ∀ b ∈ s, isPlain b = true) :
    ∃ items : List StringItem, items.flatMap StringItem.bytes = s ∧
      ∀ rest, StringItem.text (items ++ rest) = s ++ StringItem.text rest := by
  induction s with
  | nil => exact ⟨[], rfl, fun _ => rfl⟩
  | cons b s ih =>
    obtain ⟨items, hitems, htext⟩ := ih fun c hc => h c (List.mem_cons_of_mem b hc)
    refine ⟨.plain b (h b List.mem_cons_self) :: items, ?_, ?_⟩
    · rw [List.flatMap_cons, hitems]
      rfl
    · intro rest
      exact congrArg (b :: ·) (htext rest)

theorem of_tries_unit (ht : t <:+ text.toList) (h : tries text start unitPattern t k = some x) :
    ∃ a b c d u, (isHex a = true ∧ isHex b = true ∧ isHex c = true ∧ isHex d = true) ∧
      t = 92 :: 117 :: a :: b :: c :: d :: u ∧ k u = some x := by
  rw [unitPattern, tries_seq, tries_seq, backslash] at h
  obtain ⟨t₁, rfl, h₁⟩ := of_tries_single (by decide) ht h
  have ht₁ := (List.suffix_cons _ t₁).trans ht
  obtain ⟨t₂, rfl, h₂⟩ := of_tries_single (by decide) ht₁ h₁
  have ht₂ := (List.suffix_cons _ t₂).trans ht₁
  rw [tries_count ht₂] at h₂
  obtain ⟨a, t₃, rfl, ha, h₃⟩ := of_tries_narrow narrow_hex ht₂ h₂
  have ht₃ := (List.suffix_cons _ t₃).trans ht₂
  obtain ⟨b, t₄, rfl, hb, h₄⟩ := of_tries_narrow narrow_hex ht₃ h₃
  have ht₄ := (List.suffix_cons _ t₄).trans ht₃
  obtain ⟨c, t₅, rfl, hc, h₅⟩ := of_tries_narrow narrow_hex ht₄ h₄
  have ht₅ := (List.suffix_cons _ t₅).trans ht₄
  obtain ⟨d, u, rfl, hd, hu⟩ := of_tries_narrow narrow_hex ht₅ h₅
  rw [contains_hex] at ha hb hc hd
  exact ⟨a, b, c, d, u, ⟨ha, hb, hc, hd⟩, rfl, hu⟩

/-- The pattern of items matches an item, or the bytes of one character. -/
theorem of_tries_item (ht : t <:+ text.toList) (h : tries text start stringItem t k = some x) :
    ∃ (items : List StringItem) (u : Bytes), t = items.flatMap StringItem.bytes ++ u ∧
      u.length < t.length ∧ k u = some x := by
  rw [stringItem_eq, tries_alt, tries_alt] at h
  rcases Option.or_eq_some_iff.mp h with h | ⟨_, h⟩
  · cases t with
    | nil =>
      rw [tries_chars_nil] at h
      cases h
    | cons b t =>
      rcases Nat.lt_or_ge b.toNat 128 with hb | hb
      · rw [tries_chars_ascii ht hb] at h
        split at h
        · rename_i hplain
          rw [contains_plain hb] at hplain
          exact ⟨[.plain b hplain], t, rfl, by simp, h⟩
        · cases h
      · obtain ⟨n, hpos, hn, hwide, htries⟩ := tries_chars_wide (k := k) plainClass_wide ht hb
        rw [htries, if_pos rfl] at h
        obtain ⟨items, hitems, _⟩ := exists_plain fun c hc => isPlain_wide (hwide c hc)
        refine ⟨items, (b :: t).drop n, by rw [hitems, List.take_append_drop], ?_, h⟩
        rw [List.length_drop]
        omega
  rcases Option.or_eq_some_iff.mp h with h | ⟨_, h⟩
  · rw [tries_seq, backslash] at h
    obtain ⟨t₁, rfl, h₁⟩ := of_tries_single (by decide) ht h
    obtain ⟨b, u, rfl, hb, hu⟩ := of_tries_narrow narrow_short ((List.suffix_cons _ t₁).trans ht) h₁
    rw [contains_short] at hb
    obtain ⟨c, hc⟩ := Option.isSome_iff_exists.mp hb
    refine ⟨[.short b c hc], u, rfl, ?_, hu⟩
    simp only [List.length_cons]
    omega
  · obtain ⟨a, b, c, d, u, hhex, rfl, hu⟩ := of_tries_unit ht h
    refine ⟨[.unit a b c d hhex], u, rfl, ?_, hu⟩
    simp only [List.length_cons]
    omega

theorem of_tries_items (n : Nat) : ∀ {t : Bytes}, t.length ≤ n → t <:+ text.toList →
    tries text start (.star true stringItem) t k = some x →
    ∃ (items : List StringItem) (u : Bytes), t = items.flatMap StringItem.bytes ++ u ∧
      k u = some x := by
  induction n with
  | zero =>
    intro t hn ht h
    obtain rfl : t = [] := List.length_eq_zero_iff.mp (by omega)
    rw [tries_star single_stringItem rfl ht] at h
    rcases Option.or_eq_some_iff.mp h with h | ⟨_, h⟩
    · obtain ⟨_, u, _, hlength, _⟩ := of_tries_item ht h
      exact absurd hlength (Nat.not_lt_zero _)
    · exact ⟨[], [], rfl, h⟩
  | succ n ih =>
    intro t hn ht h
    rw [tries_star single_stringItem rfl ht] at h
    rcases Option.or_eq_some_iff.mp h with h | ⟨_, h⟩
    · obtain ⟨items, v, rfl, hlength, hv⟩ := of_tries_item ht h
      obtain ⟨items', u, rfl, hu⟩ := ih (by omega) (suffix_of_append ht) hv
      exact ⟨items ++ items', u, by simp, hu⟩
    · exact ⟨[], t, rfl, h⟩

theorem of_tries_string (ht : t <:+ text.toList)
    (h : tries text (placeOf text t) stringPattern t k = some x) :
    ∃ s token u, StringToken s token ∧ t = token ++ u ∧ k u = some x := by
  rw [stringPattern_eq, tries_seq, tries_seq, tries_anchor ht, quote] at h
  obtain ⟨t₁, rfl, h₁⟩ := of_tries_single (by decide) ht h
  have ht₁ := (List.suffix_cons _ t₁).trans ht
  obtain ⟨items, t₂, rfl, h₂⟩ := of_tries_items _ (Nat.le_refl _) ht₁ h₁
  obtain ⟨u, rfl, hu⟩ := of_tries_single (by decide) (suffix_of_append ht₁) h₂
  exact ⟨_, _, u, ⟨items, rfl, rfl⟩, by simp, hu⟩

/-- How some items and the closing quote behind them are written. -/
def closed (items : List StringItem) (u : Bytes) : Bytes :=
  items.flatMap StringItem.bytes ++ Bytes.ascii '\x22' :: u

/-- A character outside ASCII in front of a closing quote is made of whole items. -/
theorem drop_closed (n : Nat) : ∀ (items : List StringItem), n ≤ (closed items u).length →
    (∀ b ∈ (closed items u).take n, 128 ≤ b.toNat) →
    ∃ items', items'.length + n = items.length ∧ (closed items u).drop n = closed items' u := by
  induction n with
  | zero => exact fun items _ _ => ⟨items, rfl, rfl⟩
  | succ n ih =>
    intro items hn hwide
    have hfirst : ∀ {b : UInt8} {v : Bytes}, closed items u = b :: v → 128 ≤ b.toNat :=
      fun hb => hwide _ (by rw [hb, List.take_succ_cons]; exact List.mem_cons_self)
    rcases items with _ | ⟨⟨b, hb⟩ | ⟨b, c, hb⟩ | ⟨a, b, c, d, hd⟩, items⟩
    · exact absurd (hfirst rfl) (by decide)
    · have hcons : closed (.plain b hb :: items) u = b :: closed items u := rfl
      rw [hcons] at hn hwide ⊢
      obtain ⟨items', hlength, hdrop⟩ := ih items (Nat.le_of_succ_le_succ hn) fun c hc =>
        hwide c (by rw [List.take_succ_cons]; exact List.mem_cons_of_mem b hc)
      exact ⟨items', by rw [List.length_cons]; omega, hdrop⟩
    · exact absurd (hfirst rfl) (by decide)
    · exact absurd (hfirst rfl) (by decide)

theorem tries_plain_none {b : UInt8} (ht : b :: t <:+ text.toList) (hb : isPlain b = false) :
    tries text start (.chars plainClass) (b :: t) k = none := by
  have hascii : b.toNat < 128 := by
    rcases Nat.lt_or_ge b.toNat 128 with hlt | hge
    · exact hlt
    · rw [isPlain_wide hge] at hb
      cases hb
  rw [tries_chars_ascii ht hascii, contains_plain hascii, hb]
  rfl

theorem tries_backslash_none {b : UInt8} (ht : b :: t <:+ text.toList)
    (hb : b ≠ Bytes.ascii '\\') : tries text start backslash (b :: t) k = none := by
  rw [backslash, tries_narrow (narrow_single (by decide)) ht, if_neg]
  rw [contains_single]
  intro heq
  exact hb (UInt8.toNat_inj.mp heq)

theorem tries_item_quote (ht : Bytes.ascii '\x22' :: u <:+ text.toList) :
    tries text start stringItem (Bytes.ascii '\x22' :: u) k = none := by
  have hne : Bytes.ascii '\x22' ≠ Bytes.ascii '\\' := by decide
  rw [stringItem_eq, tries_alt, tries_alt, tries_plain_none ht (by decide), tries_seq,
    tries_backslash_none ht hne, unitPattern, tries_seq, tries_seq, tries_backslash_none ht hne]
  rfl

theorem tries_item_plain {b : UInt8} (hb : isPlain b = true) {items : List StringItem}
    (ht : b :: closed items u <:+ text.toList)
    (hk : ∀ items' : List StringItem, items'.length ≤ items.length →
      closed items' u <:+ text.toList → k (closed items' u) = some x) :
    tries text start stringItem (b :: closed items u) k = some x := by
  have hplain : tries text start (.chars plainClass) (b :: closed items u) k = some x := by
    rcases Nat.lt_or_ge b.toNat 128 with hascii | hwide
    · rw [tries_chars_ascii ht hascii, contains_plain hascii, if_pos hb]
      exact hk items (Nat.le_refl _) ((List.suffix_cons b _).trans ht)
    · -- The class takes a whole character here, of which `b` is only the first byte.
      obtain ⟨n, hpos, hn, htake, htries⟩ := tries_chars_wide (k := k) plainClass_wide ht hwide
      have hdropped : (b :: closed items u).drop n <:+ text.toList :=
        (List.drop_suffix n _).trans ht
      obtain ⟨items', hlength, hdrop⟩ := drop_closed n (.plain b hb :: items) hn htake
      have hcons : closed (.plain b hb :: items) u = b :: closed items u := rfl
      rw [hcons] at hdrop
      rw [List.length_cons] at hlength
      rw [hdrop] at hdropped htries
      rw [htries, if_pos rfl]
      exact hk items' (by omega) hdropped
  rw [stringItem_eq, tries_alt, hplain]
  rfl

theorem tries_item_short {b c : UInt8} (hb : shortEscape? b = some c)
    (ht : Bytes.ascii '\\' :: b :: t <:+ text.toList) (hk : k t = some x) :
    tries text start stringItem (Bytes.ascii '\\' :: b :: t) k = some x := by
  have ht₁ := (List.suffix_cons _ (b :: t)).trans ht
  have hshort : tries text start (.seq backslash (.chars shortClass))
      (Bytes.ascii '\\' :: b :: t) k = some x := by
    rw [tries_seq, backslash, tries_single (by decide) ht, tries_narrow narrow_short ht₁,
      contains_short, hb]
    exact hk
  rw [stringItem_eq, tries_alt, tries_alt, tries_plain_none ht (by decide), hshort]
  rfl

theorem tries_item_unit {a b c d : UInt8}
    (h : isHex a = true ∧ isHex b = true ∧ isHex c = true ∧ isHex d = true)
    (ht : Bytes.ascii '\\' :: Bytes.ascii 'u' :: a :: b :: c :: d :: t <:+ text.toList)
    (hk : k t = some x) :
    tries text start stringItem
      (Bytes.ascii '\\' :: Bytes.ascii 'u' :: a :: b :: c :: d :: t) k = some x := by
  obtain ⟨ha, hb, hc, hd⟩ := h
  have ht₁ := (List.suffix_cons _ (Bytes.ascii 'u' :: a :: b :: c :: d :: t)).trans ht
  have ht₂ := (List.suffix_cons _ (a :: b :: c :: d :: t)).trans ht₁
  have ht₃ := (List.suffix_cons a (b :: c :: d :: t)).trans ht₂
  have ht₄ := (List.suffix_cons b (c :: d :: t)).trans ht₃
  have ht₅ := (List.suffix_cons c (d :: t)).trans ht₄
  have hshort : tries text start (.seq backslash (.chars shortClass))
      (Bytes.ascii '\\' :: Bytes.ascii 'u' :: a :: b :: c :: d :: t) k = none := by
    rw [tries_seq, backslash, tries_single (by decide) ht, tries_narrow narrow_short ht₁,
      contains_short]
    rfl
  have hunit : tries text start unitPattern
      (Bytes.ascii '\\' :: Bytes.ascii 'u' :: a :: b :: c :: d :: t) k = some x := by
    rw [unitPattern, tries_seq, tries_seq, backslash, tries_single (by decide) ht,
      tries_single (by decide) ht₁, tries_count ht₂]
    simp only [triesTimes]
    rw [tries_narrow narrow_hex ht₂, contains_hex, if_pos ha, tries_narrow narrow_hex ht₃,
      contains_hex, if_pos hb, tries_narrow narrow_hex ht₄, contains_hex, if_pos hc,
      tries_narrow narrow_hex ht₅, contains_hex, if_pos hd, hk]
  rw [stringItem_eq, tries_alt, tries_alt, tries_plain_none ht (by decide), hshort, hunit]
  rfl

/-- In front of a closing quote the pattern of items takes an item, or several at once, if one can
go on behind whatever it takes. -/
theorem tries_item_first {i : StringItem} {items : List StringItem}
    (ht : closed (i :: items) u <:+ text.toList)
    (hk : ∀ items' : List StringItem, items'.length ≤ items.length →
      closed items' u <:+ text.toList → k (closed items' u) = some x) :
    tries text start stringItem (closed (i :: items) u) k = some x := by
  have hrest : closed items u <:+ text.toList := by
    have hcons : closed (i :: items) u = i.bytes ++ closed items u := by
      simp [closed]
    rw [hcons] at ht
    exact suffix_of_append ht
  have hx := hk items (Nat.le_refl _) hrest
  cases i with
  | plain b hb => exact tries_item_plain hb ht hk
  | short b c hb => exact tries_item_short hb ht hx
  | unit a b c d h => exact tries_item_unit h ht hx

/-- In front of a closing quote the pattern of items takes all items. -/
theorem tries_items_all (n : Nat) {items : List StringItem} (hn : items.length ≤ n)
    (ht : closed items u <:+ text.toList) (hk : k (Bytes.ascii '\x22' :: u) = some x) :
    tries text start (.star true stringItem) (closed items u) k = some x := by
  -- One match may take several items at once, so the induction is on a bound on their number.
  induction n generalizing items with
  | zero =>
    obtain rfl : items = [] := List.length_eq_zero_iff.mp (by omega)
    rw [tries_star single_stringItem rfl ht]
    exact Option.or_eq_some_iff.mpr (.inr ⟨tries_item_quote ht, hk⟩)
  | succ n ih =>
    rw [tries_star single_stringItem rfl ht]
    cases items with
    | nil => exact Option.or_eq_some_iff.mpr (.inr ⟨tries_item_quote ht, hk⟩)
    | cons i items =>
      rw [List.length_cons] at hn
      refine Option.or_eq_some_iff.mpr (.inl (tries_item_first ht ?_))
      intro items' hlength hsuffix
      exact ih (by omega) hsuffix

theorem tries_string_all {s token : Bytes} (ht : token ++ u <:+ text.toList)
    (h : StringToken s token) (hk : k u = some x) :
    tries text (placeOf text (token ++ u)) stringPattern (token ++ u) k = some x := by
  obtain ⟨items, rfl, rfl⟩ := h
  have hclosed : Bytes.ascii '\x22' :: items.flatMap StringItem.bytes ++ [Bytes.ascii '\x22'] ++ u =
      Bytes.ascii '\x22' :: closed items u := by
    simp [closed]
  rw [hclosed] at ht ⊢
  have hrest := (List.suffix_cons _ (closed items u)).trans ht
  rw [stringPattern_eq, tries_seq, tries_seq, tries_anchor ht, quote, tries_single (by decide) ht]
  refine tries_items_all _ (Nat.le_refl _) hrest ?_
  rw [tries_single (by decide) (suffix_of_append hrest), hk]

/-- The text that is computed from a string in quotes is the one it stands for. -/
theorem readString_eq {s token : Bytes} (h : StringToken s token) : readString token = .ok s := by
  obtain ⟨items, rfl, rfl⟩ := h
  have hdecode := decode_quoted items
  unfold quoted at hdecode
  rw [readString, hdecode]

/-- In a quoted string the character U+007F does not occur. -/
theorem StringToken.not_mem {s : Bytes} (h : StringToken s t) : 127 ∉ t := by
  obtain ⟨items, _, rfl⟩ := h
  have hhex : ∀ {b : UInt8}, isHex b = true → (127 : UInt8) ≠ b := by
    rintro _ hb rfl
    exact absurd hb (by decide)
  have hitem : ∀ i : StringItem, 127 ∉ i.bytes := by
    rintro (⟨b, hb⟩ | ⟨b, c, hb⟩ | ⟨a, b, c, d, ha, hb, hc, hd⟩)
    · rw [StringItem.bytes, List.mem_singleton]
      rintro rfl
      exact absurd hb (by decide)
    · simp only [StringItem.bytes, List.mem_cons, List.not_mem_nil, or_false]
      rintro (h | rfl)
      · exact absurd h (by decide)
      · cases hb
    · simp [StringItem.bytes, hhex ha, hhex hb, hhex hc, hhex hd]
  simp only [List.mem_append, List.mem_cons, List.mem_flatMap, List.not_mem_nil, or_false]
  rintro ((h | ⟨i, _, hi⟩) | h)
  · exact absurd h (by decide)
  · exact hitem i hi
  · exact absurd h (by decide)

end Backtrack.Json
