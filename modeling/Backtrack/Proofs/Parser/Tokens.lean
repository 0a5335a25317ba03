import Backtrack.Proofs.Parser.Reading
import Backtrack.Proofs.Regex.Preference
import Backtrack.Proofs.Text.Characters

/-!
# Reading tokens

What fixed texts, characters, patterns and trimmed terms read, in terms of the bytes that are left.
Conditions on characters are treated where only ASCII characters satisfy them.
-/

namespace Backtrack.Reader

open Text

variable {ι : Type} {τ : ι → Type} {α : Type} {rd : Reader τ} {s u : Bytes}

section Atoms

theorem run_literal {text : Bytes} (hs : s <:+ rd.bytes) :
    rd.run (.literal text) s =
      if s.take text.length = text then .success text (rd.offsetOf s + text.length)
      else .miss (rd.offsetOf s) := by
  unfold run Term.parser Parser.literal Input.slice
  rw [Input.place?_eq _ offsetOf_nonneg offsetOf_le, offsetOf_toNat]
  dsimp only [Run.ofExcept]
  rw [extract_placeOf hs]
  split <;> rfl

theorem reads_literal {text v : Bytes} : rd.Reads (.literal text) s v u ↔
    s <:+ rd.bytes ∧ s = text ++ u ∧ v = text := by
  constructor
  · rintro ⟨hs, hu, h⟩
    rw [run_literal hs] at h
    split at h
    · rename_i htake
      obtain ⟨rfl, hoffset⟩ := Outcome.success.inj h
      have hsplit : s = text ++ s.drop text.length := by
        conv => lhs; rw [← List.take_append_drop text.length s, htake]
      have hdrop : text ++ s.drop text.length <:+ rd.bytes := hsplit ▸ hs
      have hplace := offsetOf_append hdrop
      rw [← hsplit] at hplace
      have hu' := offsetOf_inj (hu.trans hs) ((List.drop_suffix _ s).trans hs)
        (hoffset.symm.trans hplace.symm)
      exact ⟨hs, by rw [hu']; exact hsplit, rfl⟩
    · cases h
  · rintro ⟨hs, rfl, rfl⟩
    refine ⟨hs, List.suffix_append v u, ?_⟩
    rw [run_literal hs, List.take_left, if_pos rfl, offsetOf_append hs]

theorem rejects_literal {text : Bytes} (hs : s <:+ rd.bytes) (h : ¬ text <+: s) :
    rd.Rejects (.literal text) s := by
  refine ⟨hs, rd.offsetOf s, ?_⟩
  rw [run_literal hs, if_neg]
  intro htake
  rw [← htake] at h
  exact h (List.take_prefix _ _)

theorem rejects_literal_iff {text : Bytes} :
    rd.Rejects (.literal text) s ↔ s <:+ rd.bytes ∧ ¬ text <+: s := by
  constructor
  · intro h
    refine ⟨h.start, ?_⟩
    rintro ⟨u, rfl⟩
    exact h.not_reads (reads_literal.mpr ⟨h.start, rfl, rfl⟩)
  · rintro ⟨hs, h⟩
    exact rejects_literal hs h

/-- Whether a byte is an ASCII character that satisfies a condition. -/
def accepts (condition : Char → Bool) (b : UInt8) : Bool :=
  b.toNat < 128 && condition (Char.ofNat b.toNat)

theorem run_satisfy_nil {condition : Char → Bool} :
    rd.run (.satisfy condition) [] = .miss (rd.offsetOf []) := by
  have hend : (rd.input.size : Int) ≤ rd.offsetOf [] := Int.le_refl _
  unfold run Term.parser Parser.satisfy Input.char?
  rw [if_pos hend]
  rfl

variable {condition : Char → Bool}

theorem offsetOf_drop (hs : s <:+ rd.bytes) {n : Nat} (hn : n ≤ s.length) :
    rd.offsetOf (s.drop n) = rd.offsetOf s + n := by
  have hplace := placeOf_drop hs hn
  unfold offsetOf
  omega

theorem run_satisfy (hs : s <:+ rd.bytes) : rd.run (.satisfy condition) s =
    match Utf8.decode? s with
    | some (c, n) =>
      if condition c then .success c (rd.offsetOf s + n) else .miss (rd.offsetOf s)
    | none => .miss (rd.offsetOf s) := by
  rcases s with _ | ⟨b, t⟩
  · exact run_satisfy_nil
  have hsize : rd.offsetOf (b :: t) < rd.input.size := by
    have happend := offsetOf_append (t := [b]) (u := t) hs
    have hle : rd.offsetOf t ≤ rd.input.size := offsetOf_le
    rw [List.singleton_append, List.length_singleton] at happend
    omega
  unfold run Term.parser Parser.satisfy
  rw [Input.char?_eq _ offsetOf_nonneg hsize, offsetOf_toNat]
  dsimp only [Run.ofExcept]
  rw [at?_placeOf hs, Utf8.decode?_take]
  rcases Utf8.decode? (b :: t) with _ | ⟨c, n⟩
  · rfl
  · cases hc : condition c with
    | true => simp [hc, Run.success]
    | false => simp [hc, Run.miss]

/-- A condition on characters reads the first character that is left, in any encoding. -/
theorem reads_satisfy_iff {c : Char} : rd.Reads (.satisfy condition) s c u ↔
    s <:+ rd.bytes ∧ condition c = true ∧ ∃ n, Utf8.decode? s = some (c, n) ∧ u = s.drop n := by
  constructor
  · rintro ⟨hs, hu, h⟩
    rw [run_satisfy hs] at h
    split at h
    · rename_i d n hread
      split at h
      · rename_i hd
        obtain ⟨rfl, hoffset⟩ := Outcome.success.inj h
        rw [← offsetOf_drop hs (Utf8.decode?_width hread).2] at hoffset
        refine ⟨hs, hd, n, hread, ?_⟩
        exact (offsetOf_inj ((List.drop_suffix n s).trans hs) (hu.trans hs) hoffset).symm
      · cases h
    · cases h
  · rintro ⟨hs, hc, n, hread, rfl⟩
    refine ⟨hs, List.drop_suffix n s, ?_⟩
    rw [run_satisfy hs, hread, offsetOf_drop hs (Utf8.decode?_width hread).2]
    dsimp only
    rw [if_pos hc]

theorem rejects_satisfy_iff : rd.Rejects (.satisfy condition) s ↔
    s <:+ rd.bytes ∧ ∀ c n, Utf8.decode? s = some (c, n) → condition c = false := by
  constructor
  · rintro h
    refine ⟨h.start, fun c n hread => ?_⟩
    apply Bool.eq_false_iff.mpr
    intro hc
    exact h.not_reads (reads_satisfy_iff.mpr ⟨h.start, hc, n, hread, rfl⟩)
  · rintro ⟨hs, h⟩
    refine ⟨hs, rd.offsetOf s, ?_⟩
    rw [run_satisfy hs]
    split
    · rename_i c n hread
      rw [h c n hread]
      rfl
    · rfl

variable (hcondition : ∀ c, condition c = true → c.toNat < 128)
include hcondition

theorem run_satisfy_cons {b : UInt8} {t : Bytes} (hs : b :: t <:+ rd.bytes) :
    rd.run (.satisfy condition) (b :: t) =
      if accepts condition b then .success (Char.ofNat b.toNat) (rd.offsetOf t)
      else .miss (rd.offsetOf (b :: t)) := by
  have happend := offsetOf_append (t := [b]) (u := t) hs
  have hsize : rd.offsetOf (b :: t) < rd.input.size := by
    have hle : rd.offsetOf t ≤ rd.input.size := offsetOf_le
    rw [List.singleton_append, List.length_singleton] at happend
    omega
  unfold run Term.parser Parser.satisfy accepts
  rw [Input.char?_eq _ offsetOf_nonneg hsize, offsetOf_toNat]
  dsimp only [Run.ofExcept]
  rcases Nat.lt_or_ge b.toNat 128 with hb | hb
  · rw [at?_ascii hs hb, decide_eq_true hb, Bool.true_and]
    dsimp only
    split
    · rw [happend]
      rfl
    · rfl
  · obtain ⟨c, n, hat, hc, _⟩ := at?_wide hs hb
    have hfalse : condition c = false := by
      cases h : condition c with
      | false => rfl
      | true =>
        have hlt := hcondition c h
        omega
    rw [hat, decide_eq_false (Nat.not_lt.mpr hb), Bool.false_and]
    dsimp only
    rw [hfalse]
    rfl

theorem reads_satisfy {c : Char} : rd.Reads (.satisfy condition) s c u ↔
    s <:+ rd.bytes ∧ ∃ b, s = b :: u ∧ accepts condition b = true ∧ c = Char.ofNat b.toNat := by
  constructor
  · rintro ⟨hs, hu, h⟩
    cases s with
    | nil =>
      rw [run_satisfy_nil] at h
      cases h
    | cons b t =>
      rw [run_satisfy_cons hcondition hs] at h
      split at h
      · rename_i hb
        obtain ⟨rfl, hoffset⟩ := Outcome.success.inj h
        obtain rfl := offsetOf_inj ((List.suffix_cons b t).trans hs) (hu.trans hs) hoffset
        exact ⟨hs, b, rfl, hb, rfl⟩
      · cases h
  · rintro ⟨hs, b, rfl, hb, rfl⟩
    refine ⟨hs, List.suffix_cons b u, ?_⟩
    rw [run_satisfy_cons hcondition hs, if_pos hb]

theorem rejects_satisfy (hs : s <:+ rd.bytes) (h : HeadNot (accepts condition) s) :
    rd.Rejects (.satisfy condition) s := by
  refine ⟨hs, rd.offsetOf s, ?_⟩
  cases s with
  | nil => exact run_satisfy_nil
  | cons b t =>
    rw [run_satisfy_cons hcondition hs, headNot_cons.mp h]
    rfl

end Atoms

section Characters

theorem accepts_eq {c : Char} (hc : c.toNat < 128) (b : UInt8) :
    accepts (· = c) b = (b = Bytes.ascii c : Bool) := by
  have hascii : (Bytes.ascii c).toNat = c.toNat := by
    simp only [Bytes.ascii, Nat.toUInt8, UInt8.toNat_ofNat']
    omega
  rw [accepts, Bool.eq_iff_iff, Bool.and_eq_true, decide_eq_true_eq, decide_eq_true_eq,
    decide_eq_true_eq]
  constructor
  · rintro ⟨hb, rfl⟩
    rw [← UInt8.toNat_inj, hascii, Char.ofNat, dif_pos (.inl (by omega))]
    rfl
  · rintro rfl
    rw [hascii]
    exact ⟨hc, Char.ofNat_toNat c⟩

theorem reads_char {c d : Char} (hc : c.toNat < 128) : rd.Reads (.char c) s d u ↔
    s <:+ rd.bytes ∧ s = Bytes.ascii c :: u ∧ d = c := by
  rw [Term.char, reads_satisfy (by simp [hc])]
  constructor
  · rintro ⟨hs, b, rfl, hb, rfl⟩
    have hchar := hb
    rw [accepts_eq hc, decide_eq_true_eq] at hb
    rw [accepts, Bool.and_eq_true, decide_eq_true_eq, decide_eq_true_eq] at hchar
    exact ⟨hs, by rw [hb], hchar.2⟩
  · rintro ⟨hs, rfl, rfl⟩
    have hb : accepts (· = d) (Bytes.ascii d) = true := by simp [accepts_eq hc]
    refine ⟨hs, _, rfl, hb, ?_⟩
    rw [accepts, Bool.and_eq_true, decide_eq_true_eq, decide_eq_true_eq] at hb
    exact hb.2.symm

theorem rejects_char {c : Char} (hc : c.toNat < 128) (hs : s <:+ rd.bytes)
    (h : HeadNot (· = Bytes.ascii c) s) : rd.Rejects (.char c) s := by
  refine rejects_satisfy (by simp [hc]) hs ?_
  have heq : accepts (· = c) = fun b => decide (b = Bytes.ascii c) := funext (accepts_eq hc)
  rwa [heq]

variable {r : Regex}

theorem run_pattern (hr : r.isAnchored = true) :
    rd.run (.pattern r) s =
      match r.tries rd.input.text (placeOf rd.input.text s) s some with
      | some u =>
        .success (rd.input.slice (placeOf rd.input.text s) (placeOf rd.input.text u))
          (rd.offsetOf u)
      | none => .miss (rd.offsetOf s) := by
  unfold run Term.parser Parser.pattern
  rw [Input.place?_eq _ offsetOf_nonneg offsetOf_le, offsetOf_toNat]
  dsimp only [Run.ofExcept]
  rw [Regex.findEnd?_eq hr]
  cases r.tries rd.input.text (placeOf rd.input.text s) s some <;> rfl

/-- A pattern reads what its preferred match describes. -/
theorem reads_pattern (hr : r.isAnchored = true) {v : Bytes} : rd.Reads (.pattern r) s v u ↔
    s <:+ rd.bytes ∧ s = v ++ u ∧
      r.tries rd.input.text (placeOf rd.input.text s) s some = some u := by
  have hslice : ∀ {v u : Bytes}, v ++ u <:+ rd.bytes →
      rd.input.slice (placeOf rd.input.text (v ++ u)) (placeOf rd.input.text u) = v := by
    intro v u h
    rw [Input.slice, placeOf_of_append h, extract_placeOf h, List.take_left]
  constructor
  · rintro ⟨hs, hu, h⟩
    rw [run_pattern hr] at h
    split at h
    · rename_i u' htries
      obtain ⟨hv, hoffset⟩ := Outcome.success.inj h
      obtain ⟨m, hm, _, hsome⟩ := Regex.exists_of_tries hs htries
      cases hsome
      obtain rfl := offsetOf_inj (hm.trans hs) (hu.trans hs) hoffset
      obtain ⟨w, rfl⟩ := hu
      rw [hslice hs] at hv
      exact ⟨hs, by rw [hv], htries⟩
    · cases h
  · rintro ⟨hs, rfl, htries⟩
    refine ⟨hs, List.suffix_append v u, ?_⟩
    rw [run_pattern hr, htries]
    dsimp only
    rw [hslice hs]

theorem rejects_pattern (hr : r.isAnchored = true) (hs : s <:+ rd.bytes)
    (h : r.tries rd.input.text (placeOf rd.input.text s) s some = none) :
    rd.Rejects (.pattern r) s := by
  refine ⟨hs, rd.offsetOf s, ?_⟩
  rw [run_pattern hr, h]

end Characters

section Words

open Regex

variable {c d : CharClass} (hc : Narrow c) (hd : Narrow d)

def wordPattern (c d : CharClass) : Regex :=
  .seq (.seq (.check .beginText) (.chars c)) (.star true (.chars d))

include hc

theorem tries_word_none {text : Array UInt8} {t : Bytes} (ht : t <:+ text.toList)
    (hhead : HeadNot (fun b => c.contains b.toNat) t) :
    tries text (placeOf text t) (wordPattern c d) t some = none := by
  rw [wordPattern, tries_seq, tries_anchor ht]
  exact tries_narrow_none hc ht hhead

include hd

/-- A word is read as far as it goes. -/
theorem reads_word {w : Bytes} : rd.Reads (.pattern (wordPattern c d)) s w u ↔
    s <:+ rd.bytes ∧ s = w ++ u ∧
      (∃ b rest, w = b :: rest ∧ c.contains b.toNat = true ∧
        ∀ b' ∈ rest, d.contains b'.toNat = true) ∧
      HeadNot (fun b => d.contains b.toNat) u := by
  have hrun : ∀ {b rest v}, b :: (rest ++ v) <:+ rd.bytes → c.contains b.toNat = true →
      (∀ b' ∈ rest, d.contains b'.toNat = true) → HeadNot (fun b => d.contains b.toNat) v →
      tries rd.input.text (placeOf rd.input.text (b :: (rest ++ v))) (wordPattern c d)
        (b :: (rest ++ v)) some = some v := by
    intro b rest v hs hb hrest hv
    rw [wordPattern, tries_seq, tries_anchor hs, tries_narrow hc hs, if_pos hb]
    exact tries_star_run hd ((List.suffix_cons b _).trans hs) hrest hv rfl
  rw [reads_pattern rfl]
  constructor
  · rintro ⟨hs, rfl, htries⟩
    refine ⟨hs, rfl, ?_⟩
    generalize hw : w ++ u = t at hs htries
    by_cases hhead : HeadNot (fun b => c.contains b.toNat) t
    · rw [tries_word_none hc hs hhead] at htries
      cases htries
    rcases t with _ | ⟨b, t⟩
    · exact absurd headNot_nil hhead
    -- The run of the word is as long as it can be, which makes it the one that was read.
    have hb : c.contains b.toNat = true := by simpa [headNot_cons] using hhead
    let kind : UInt8 → Bool := fun b => d.contains b.toNat
    have hrest : ∀ b' ∈ t.takeWhile kind, kind b' = true := List.all_eq_true.mp List.all_takeWhile
    have hnot : HeadNot kind (t.dropWhile kind) := by
      intro b' hb'
      have h := List.head?_dropWhile_not kind t
      rw [hb'] at h
      simpa using h
    rw [← List.takeWhile_append_dropWhile (p := kind) (l := t)] at hs htries hw
    rw [hrun hs hb hrest hnot] at htries
    obtain rfl := Option.some.inj htries
    exact ⟨⟨b, _, List.append_cancel_right hw, hb, hrest⟩, hnot⟩
  · rintro ⟨hs, rfl, ⟨b, rest, rfl, hb, hrest⟩, hu⟩
    exact ⟨hs, rfl, hrun hs hb hrest hu⟩

end Words

section Spaces

theorem accepts_isSpace : accepts Term.isSpace = isSpaceByte := by
  funext b
  revert b
  exact Bytes.forall_byte (by decide +kernel)

theorem isSpace_ascii (c : Char) (h : Term.isSpace c = true) : c.toNat < 128 := by
  simp only [Term.isSpace, Bool.or_eq_true, decide_eq_true_eq] at h
  rcases h with ((rfl | rfl) | rfl) | rfl <;> decide

theorem reads_space {c : Char} : rd.Reads .space s c u ↔
    s <:+ rd.bytes ∧ ∃ b, s = b :: u ∧ isSpaceByte b = true ∧ c = Char.ofNat b.toNat := by
  rw [Term.space, reads_satisfy isSpace_ascii, accepts_isSpace]

theorem rejects_space (hs : s <:+ rd.bytes) (h : HeadNot isSpaceByte s) : rd.Rejects .space s :=
  rejects_satisfy isSpace_ascii hs (accepts_isSpace ▸ h)

theorem reads_spaces {cs : List Char} (h : rd.Reads .spaces s cs u) : u = skip s := by
  obtain ⟨hs, hchain⟩ := reads_many0.mp h
  clear h
  induction hchain with
  | @stop s h =>
    rw [skip_of_headNot]
    intro b hb
    cases hspace : isSpaceByte b with
    | false => rfl
    | true =>
      obtain ⟨t, rfl⟩ : ∃ t, s = b :: t := ⟨s.tail, List.eq_cons_of_mem_head? hb⟩
      have hread := reads_space.mpr ⟨hs, b, rfl, hspace, rfl⟩
      rcases h with h | ⟨c, h⟩
      · exact absurd hread h.not_reads
      · have hlength := congrArg List.length (hread.unique h).2
        simp at hlength
  | @next s m u c cs h _ _ ih =>
    obtain ⟨_, b, rfl, hb, _⟩ := reads_space.mp h
    rw [ih h.finish]
    simp [skip, hb]

theorem exists_reads_spaces (hs : s <:+ rd.bytes) : ∃ cs, rd.Reads .spaces s cs (skip s) := by
  suffices hchain : ∃ cs, rd.Chain .space s cs (skip s) by
    obtain ⟨cs, h⟩ := hchain
    exact ⟨cs, reads_many0.mpr ⟨hs, h⟩⟩
  induction s with
  | nil => exact ⟨[], .stop (.inl (rejects_space hs headNot_nil))⟩
  | cons b t ih =>
    cases hb : isSpaceByte b with
    | false =>
      have hhead := headNot_cons (t := t).mpr hb
      rw [skip_of_headNot hhead]
      exact ⟨[], .stop (.inl (rejects_space hs hhead))⟩
    | true =>
      obtain ⟨cs, hcs⟩ := ih ((List.suffix_cons b t).trans hs)
      have hskip : skip (b :: t) = skip t := by simp [skip, hb]
      have hne : t ≠ b :: t := fun heq => by simpa using congrArg List.length heq
      rw [hskip]
      exact ⟨_ :: cs, .next (reads_space.mpr ⟨hs, b, rfl, hb, rfl⟩) hne hcs⟩

variable {p : Term τ α} {a : α}

/-- A trimmed term reads behind the spaces and leaves none. -/
theorem reads_trim : rd.Reads p.trim s a u ↔
    s <:+ rd.bytes ∧ ∃ m, rd.Reads p (skip s) a m ∧ u = skip m := by
  rw [Term.trim, Term.surround, reads_skipRight]
  constructor
  · rintro ⟨cs, m, hm, hcs⟩
    obtain ⟨cs', s', hs', hp⟩ := reads_skipLeft.mp hm
    obtain rfl := reads_spaces hs'
    exact ⟨hm.start, m, hp, reads_spaces hcs⟩
  · rintro ⟨hs, m, hp, rfl⟩
    obtain ⟨cs, hcs⟩ := exists_reads_spaces hs
    obtain ⟨cs', hcs'⟩ := exists_reads_spaces hp.finish
    exact ⟨cs', m, reads_skipLeft.mpr ⟨cs, skip s, hcs, hp⟩, hcs'⟩

/-- What a term reads without the blanks around it, the trimmed term reads with them. -/
theorem reads_trim_spaced {b : UInt8} {token t r : Bytes} (ht : Spaced (b :: token) t)
    (hb : isSpaceByte b = false) (hs : s <:+ rd.bytes) (hskip : skip s = skip (t ++ r))
    (h : ∀ behind : Bytes, behind.all isSpaceByte = true →
      (b :: token) ++ (behind ++ r) <:+ rd.bytes →
      rd.Reads p ((b :: token) ++ (behind ++ r)) a (behind ++ r)) :
    rd.Reads p.trim s a (skip r) := by
  obtain ⟨behind, hbehind, heq⟩ := skip_spaced ht hb r
  rw [heq] at hskip
  have hread := h behind hbehind (hskip ▸ (skip_suffix s).trans hs)
  rw [← hskip] at hread
  exact reads_trim.mpr ⟨hs, behind ++ r, hread, (skip_append hbehind r).symm⟩

/-- A character between blanks is read with the blanks. -/
theorem reads_trim_char {c d : Char} (hc : c.toNat < 128) : rd.Reads (Term.char c).trim s d u ↔
    s <:+ rd.bytes ∧ (∃ r, skip s = Bytes.ascii c :: r ∧ u = skip r) ∧ d = c := by
  rw [reads_trim]
  constructor
  · rintro ⟨hs, m, hm, rfl⟩
    obtain ⟨_, hskip, rfl⟩ := (reads_char hc).mp hm
    exact ⟨hs, ⟨m, hskip, rfl⟩, rfl⟩
  · rintro ⟨hs, ⟨r, hskip, rfl⟩, rfl⟩
    exact ⟨hs, r, (reads_char hc).mpr ⟨(skip_suffix s).trans hs, hskip, rfl⟩, rfl⟩

theorem rejects_trim (hs : s <:+ rd.bytes) (h : rd.Rejects p (skip s)) : rd.Rejects p.trim s := by
  obtain ⟨cs, hcs⟩ := exists_reads_spaces hs
  apply rejects_skipRight
  exact rejects_skipLeft_iff.mpr (.inr ⟨cs, _, hcs, h⟩)

theorem sound_trim_literal (word : Bytes) :
    rd.Sound (Term.literal word).trim fun _ t => Spaced word t := by
  intro s v u h
  obtain ⟨_, m, hm, rfl⟩ := reads_trim.mp h
  exact exists_spaced (reads_literal.mp hm).2.1

variable {c : Char} (hc : c.toNat < 128)
include hc

theorem sound_trim_char :
    rd.Sound (Term.char c).trim fun _ t => Spaced [Bytes.ascii c] t := by
  intro s d u h
  obtain ⟨_, ⟨r, hskip, rfl⟩, _⟩ := (reads_trim_char hc).mp h
  exact exists_spaced hskip

theorem reads_trim_char_spaced (hspace : isSpaceByte (Bytes.ascii c) = false) {t r : Bytes}
    (ht : Spaced [Bytes.ascii c] t) (hs : s <:+ rd.bytes) (hskip : skip s = skip (t ++ r)) :
    rd.Reads (Term.char c).trim s c (skip r) :=
  reads_trim_spaced ht hspace hs hskip fun _ _ h => (reads_char hc).mpr ⟨h, rfl, rfl⟩

theorem length_lt_of_trim_char {d : Char} (h : rd.Reads (Term.char c).trim s d u) :
    u.length < s.length := by
  obtain ⟨_, ⟨r, hskip, rfl⟩, _⟩ := (reads_trim_char hc).mp h
  have hr := (skip_suffix r).length_le
  have hs := (skip_suffix s).length_le
  rw [hskip, List.length_cons] at hs
  omega

theorem rejects_trim_char (hs : s <:+ rd.bytes) (h : HeadNot (· = Bytes.ascii c) (skip s)) :
    rd.Rejects (Term.char c).trim s :=
  rejects_trim hs (rejects_char hc ((skip_suffix s).trans hs) h)

end Spaces

section End

theorem reads_atEnd {v : Unit} : rd.Reads .atEnd s v u ↔ s <:+ rd.bytes ∧ s = [] ∧ u = [] := by
  have hend : rd.offsetOf [] = rd.input.size := rfl
  have hrun : rd.run .atEnd s =
      if rd.offsetOf s = rd.input.size then .success () (rd.offsetOf s)
      else .miss (rd.offsetOf s) := by
    unfold run Term.parser Parser.atEnd
    split <;> rfl
  constructor
  · rintro ⟨hs, hu, h⟩
    rw [hrun] at h
    split at h
    · rename_i hoffset
      obtain rfl := offsetOf_inj hs List.nil_suffix (hoffset.trans hend.symm)
      exact ⟨hs, rfl, List.eq_nil_of_suffix_nil hu⟩
    · cases h
  · rintro ⟨hs, rfl, rfl⟩
    refine ⟨hs, List.suffix_rfl, ?_⟩
    rw [hrun, if_pos hend]

end End

end Backtrack.Reader
