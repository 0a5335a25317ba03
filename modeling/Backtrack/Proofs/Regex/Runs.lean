import Backtrack.Proofs.Regex.Preference

/-!
# Fixed words, quotes, and classes with everything outside ASCII

The complement of some ASCII characters contains all characters outside ASCII. A repetition of such
a class goes over whole characters, but what it takes is just a run of bytes of the class, because
every byte of a wide character counts as one of them.
-/

namespace Backtrack.Regex

open Text

def Broad (c : CharClass) : Prop := ∀ n, 128 ≤ n → c.contains n = true

theorem broad_complement {c : CharClass} (hc : Narrow c) : Broad (.complement c) := by
  intro n hn
  rw [CharClass.contains, hc n hn]
  rfl

variable {β : Type} {text : Array UInt8} {start : Nat} {c : CharClass} {t u run : Bytes}
  {k : Bytes → Option β} {x : β}

theorem of_tries_broad (hc : Broad c) (ht : t <:+ text.toList)
    (h : tries text start (.chars c) t k = some x) :
    ∃ run u, t = run ++ u ∧ run ≠ [] ∧ (∀ b ∈ run, c.contains b.toNat = true) ∧ k u = some x := by
  rcases t with _ | ⟨b, t⟩
  · rw [tries_chars_nil] at h
    cases h
  rcases Nat.lt_or_ge b.toNat 128 with hb | hb
  · rw [tries_chars_ascii ht hb] at h
    split at h
    · rename_i hcontains
      exact ⟨[b], t, rfl, List.cons_ne_nil _ _, by simpa using hcontains, h⟩
    · cases h
  · obtain ⟨n, hpos, hn, hwide, htries⟩ := tries_chars_wide (k := k) hc ht hb
    rw [htries, if_pos rfl] at h
    refine ⟨(b :: t).take n, (b :: t).drop n, (List.take_append_drop _ _).symm, ?_, ?_, h⟩
    · intro hnil
      have hlength := congrArg List.length hnil
      rw [List.length_take, List.length_nil] at hlength
      omega
    · exact fun x hx => hc _ (hwide x hx)

theorem tries_broad_none (hc : Broad c) (ht : u <:+ text.toList)
    (hhead : HeadNot (fun b => c.contains b.toNat) u) :
    tries text start (.chars c) u k = none := by
  rcases u with _ | ⟨b, u⟩
  · exact tries_chars_nil
  · have hnot := headNot_cons.mp hhead
    rcases Nat.lt_or_ge b.toNat 128 with hb | hb
    · rw [tries_chars_ascii ht hb, hnot]
      rfl
    · rw [hc _ hb] at hnot
      cases hnot

theorem of_tries_star_broad (hc : Broad c) (ht : t <:+ text.toList)
    (h : tries text start (.star true (.chars c)) t k = some x) :
    ∃ run u, t = run ++ u ∧ (∀ b ∈ run, c.contains b.toNat = true) ∧ k u = some x := by
  induction hn : t.length using Nat.strongRecOn generalizing t with
  | _ n ih =>
    rw [tries_star (single_chars c) rfl ht] at h
    rcases Option.or_eq_some_iff.mp h with h | ⟨_, h⟩
    · obtain ⟨run, v, rfl, hne, hrun, hv⟩ := of_tries_broad hc ht h
      have hpos := List.length_pos_iff.mpr hne
      rw [List.length_append] at hn
      obtain ⟨run', u, rfl, hrun', hu⟩ := ih v.length (by omega) (suffix_of_append ht) hv rfl
      refine ⟨run ++ run', u, (List.append_assoc _ _ _).symm, ?_, hu⟩
      intro b hb
      rcases List.mem_append.mp hb with hb | hb
      · exact hrun b hb
      · exact hrun' b hb
    · exact ⟨[], t, rfl, by simp, h⟩

/-- A greedy repetition takes the whole run of bytes of its class, if one can go on behind. -/
theorem tries_star_broad (hc : Broad c) (ht : run ++ u <:+ text.toList)
    (hrun : ∀ b ∈ run, c.contains b.toNat = true)
    (hhead : HeadNot (fun b => c.contains b.toNat) u) (hu : k u = some x) :
    tries text start (.star true (.chars c)) (run ++ u) k = some x := by
  induction hn : run.length using Nat.strongRecOn generalizing run with
  | _ n ih =>
    rw [tries_star (single_chars c) rfl ht]
    rcases run with _ | ⟨b, run⟩
    · rw [List.nil_append] at ht ⊢
      rw [tries_broad_none hc ht hhead]
      exact hu
    · apply Option.or_eq_some_iff.mpr (.inl ?_)
      rw [List.cons_append] at ht ⊢
      rcases Nat.lt_or_ge b.toNat 128 with hb | hb
      · have hrest := ih run.length (by rw [← hn, List.length_cons]; omega)
          ((List.suffix_cons b _).trans ht) (fun d hd => hrun d (List.mem_cons_of_mem b hd)) rfl
        rw [tries_chars_ascii ht hb, if_pos (hrun b List.mem_cons_self), hrest]
      · obtain ⟨m, hpos, hm, hwide, htries⟩ := tries_chars_wide
          (k := fun u => tries text start (.star true (.chars c)) u k) hc ht hb
        -- The character ends inside the run, because its bytes are all of the class.
        have hle : m ≤ (b :: run).length := by
          apply length_le_of_take (u := u) hm ?_ hhead
          exact fun d hd => hc _ (hwide d hd)
        have hdrop : (b :: (run ++ u)).drop m = (b :: run).drop m ++ u := by
          rw [← List.cons_append, List.drop_append_of_le_length hle]
        have hsuffix : (b :: run).drop m ++ u <:+ text.toList := by
          rw [← hdrop]
          exact (List.drop_suffix m _).trans ht
        rw [htries, if_pos rfl, hdrop]
        apply ih _ _ hsuffix (fun d hd => hrun d (List.mem_of_mem_drop hd)) rfl
        rw [List.length_drop]
        omega

section Words

variable {r : Regex} {word : List Char}

/-- An expression, and then some characters one after another. -/
def followed (r : Regex) (word : List Char) : Regex :=
  word.foldl (fun r c => .seq r (.chars (.single c))) r

def triesWord (text : Array UInt8) (start : Nat) (k : Bytes → Option β) :
    (word : List Char) → Bytes → Option β
  | [] => k
  | c :: word => fun t => tries text start (.chars (.single c)) t (triesWord text start k word)

theorem tries_followed : tries text start (followed r word) t k =
    tries text start r t (triesWord text start k word) := by
  induction word generalizing r with
  | nil => rfl
  | cons c word ih => exact ih.trans tries_seq

theorem of_triesWord (hword : word.all (fun c => c.toNat < 128) = true) (ht : t <:+ text.toList)
    (h : triesWord text start k word t = some x) :
    ∃ u, t = word.map Bytes.ascii ++ u ∧ k u = some x := by
  induction word generalizing t with
  | nil => exact ⟨t, rfl, h⟩
  | cons c word ih =>
    rw [List.all_cons, Bool.and_eq_true, decide_eq_true_eq] at hword
    obtain ⟨v, rfl, hv⟩ := of_tries_single hword.1 ht h
    obtain ⟨u, rfl, hu⟩ := ih hword.2 ((List.suffix_cons _ v).trans ht) hv
    exact ⟨u, rfl, hu⟩

theorem triesWord_all (hword : word.all (fun c => c.toNat < 128) = true)
    (ht : word.map Bytes.ascii ++ u <:+ text.toList) (hu : k u = some x) :
    triesWord text start k word (word.map Bytes.ascii ++ u) = some x := by
  induction word with
  | nil => exact hu
  | cons c word ih =>
    rw [List.all_cons, Bool.and_eq_true, decide_eq_true_eq] at hword
    have hrest := ih hword.2 ((List.suffix_cons _ _).trans ht)
    exact (tries_single hword.1 ht).trans hrest

end Words

section Quotes

variable {quote : Char}

def between (quote : Char) : Regex :=
  .seq (.seq (.chars (.single quote)) (.star true (.chars (.complement (.single quote)))))
    (.chars (.single quote))

theorem toNat_ascii {c : Char} (hc : c.toNat < 128) : (Bytes.ascii c).toNat = c.toNat := by
  simp only [Bytes.ascii, Nat.toUInt8, UInt8.toNat_ofNat']
  omega

theorem contains_other {c : Char} (hc : c.toNat < 128) {b : UInt8} :
    (CharClass.complement (.single c)).contains b.toNat = true ↔ b ≠ Bytes.ascii c := by
  rw [CharClass.contains, Bool.not_eq_true', ← Bool.not_eq_true, contains_single, ← toNat_ascii hc,
    UInt8.toNat_inj]

theorem broad_other {c : Char} (hc : c.toNat < 128) : Broad (.complement (.single c)) :=
  broad_complement (narrow_single hc)

theorem of_tries_between (hquote : quote.toNat < 128) (ht : t <:+ text.toList)
    (h : tries text start (between quote) t k = some x) :
    ∃ inside u, Bytes.ascii quote ∉ inside ∧
      t = Bytes.ascii quote :: inside ++ [Bytes.ascii quote] ++ u ∧ k u = some x := by
  rw [between, tries_seq, tries_seq] at h
  obtain ⟨v, rfl, hv⟩ := of_tries_single hquote ht h
  have hsuffix := (List.suffix_cons _ v).trans ht
  obtain ⟨inside, w, rfl, hinside, hw⟩ := of_tries_star_broad (broad_other hquote) hsuffix hv
  obtain ⟨u, rfl, hu⟩ := of_tries_single hquote (suffix_of_append hsuffix) hw
  refine ⟨inside, u, ?_, by simp, hu⟩
  intro hmem
  exact (contains_other hquote).mp (hinside _ hmem) rfl

theorem tries_between (hquote : quote.toNat < 128) {inside : Bytes}
    (ht : Bytes.ascii quote :: inside ++ [Bytes.ascii quote] ++ u <:+ text.toList)
    (hinside : Bytes.ascii quote ∉ inside) (hu : k u = some x) :
    tries text start (between quote) (Bytes.ascii quote :: inside ++ [Bytes.ascii quote] ++ u) k =
      some x := by
  rw [List.append_assoc, List.singleton_append, List.cons_append] at ht ⊢
  have ht' := (List.suffix_cons _ _).trans ht
  have hrun : ∀ b ∈ inside, (CharClass.complement (.single quote)).contains b.toNat = true := by
    intro b hb
    apply (contains_other hquote).mpr
    rintro rfl
    exact hinside hb
  have hhead : HeadNot (fun b => (CharClass.complement (.single quote)).contains b.toNat)
      (Bytes.ascii quote :: u) := by
    rw [headNot_cons, ← Bool.not_eq_true, contains_other hquote]
    exact fun h => h rfl
  rw [between, tries_seq, tries_seq, tries_single hquote ht]
  apply tries_star_broad (broad_other hquote) ht' hrun hhead
  rw [tries_single hquote (suffix_of_append ht')]
  exact hu

end Quotes

end Backtrack.Regex
