import Backtrack.Text.Bytes

/-!
# How texts begin

The first byte of a text often decides what can be read there, and blanks in front of it often do
not count.
-/

namespace Backtrack

/-- What holds of all numbers below 256, taken as bytes, holds of all bytes. -/
theorem Bytes.forall_byte {P : UInt8 → Prop} (h : ∀ n, n < 256 → P (UInt8.ofNat n)) (b : UInt8) :
    P b := by
  have hb := h b.toNat b.toNat_lt_size
  rwa [UInt8.ofNat_toNat] at hb

theorem Bytes.hexValue?_lt {b : UInt8} {n : Nat} (h : Bytes.hexValue? b = some n) : n < 16 := by
  have hall : ∀ b : UInt8, ∀ n ∈ Bytes.hexValue? b, n < 16 :=
    Bytes.forall_byte (by decide +kernel)
  exact hall b n h

namespace Text

/-- A text that does not begin with a byte of some kind. -/
def HeadNot (kind : UInt8 → Bool) (t : Bytes) : Prop := ∀ b ∈ t.head?, kind b = false

variable {kind : UInt8 → Bool} {t : Bytes}

theorem headNot_nil : HeadNot kind [] := nofun

theorem headNot_cons {b : UInt8} : HeadNot kind (b :: t) ↔ kind b = false := by
  simp [HeadNot]

theorem headNot_of_append {u : Bytes} (h : HeadNot kind (t ++ u)) : HeadNot kind t := by
  cases t with
  | nil => exact headNot_nil
  | cons b t => exact headNot_cons.mpr (headNot_cons.mp h)

theorem headNot_append {u : Bytes} (ht : HeadNot kind t) (hu : HeadNot kind u) :
    HeadNot kind (t ++ u) := by
  cases t with
  | nil => exact hu
  | cons b t => exact headNot_cons.mpr (headNot_cons.mp ht)

theorem headNot_mono {kind' : UInt8 → Bool} (h : HeadNot kind t)
    (hkind : ∀ b, kind b = false → kind' b = false) : HeadNot kind' t :=
  fun b hb => hkind b (h b hb)

/-- The bytes of some kind in front are all that is taken, if no other one follows. -/
theorem takeWhile_run {run : Bytes} (hrun : run.all kind = true) (ht : HeadNot kind t) :
    (run ++ t).takeWhile kind = run ∧ (run ++ t).dropWhile kind = t := by
  rw [List.takeWhile_append_of_pos (List.all_eq_true.mp hrun),
    List.dropWhile_append_of_pos (List.all_eq_true.mp hrun)]
  cases t with
  | nil => simp
  | cons b t => simp [headNot_cons.mp ht]

/-- Bytes of some kind do not go on into a text that begins with another one. -/
theorem length_le_of_take {run u : Bytes} {n : Nat} (hn : n ≤ (run ++ u).length)
    (htake : ∀ b ∈ (run ++ u).take n, kind b = true) (hu : HeadNot kind u) : n ≤ run.length := by
  apply Nat.le_of_not_lt
  intro hlt
  rw [List.length_append] at hn
  cases u with
  | nil =>
    rw [List.length_nil] at hn
    omega
  | cons d u =>
    obtain ⟨k, hk⟩ : ∃ k, n - run.length = k + 1 := ⟨n - run.length - 1, by omega⟩
    have hd : d ∈ (run ++ d :: u).take n := by
      rw [List.take_append, List.mem_append, hk, List.take_succ_cons]
      exact .inr List.mem_cons_self
    have hkind := htake d hd
    rw [headNot_cons.mp hu] at hkind
    cases hkind

def isSpaceByte (b : UInt8) : Bool := b = 32 || b = 9 || b = 13 || b = 10

def skip (t : Bytes) : Bytes := t.dropWhile isSpaceByte

def Spaced (token t : Bytes) : Prop :=
  ∃ before behind : Bytes, before.all isSpaceByte = true ∧ behind.all isSpaceByte = true ∧
    t = before ++ token ++ behind

theorem skip_suffix (t : Bytes) : skip t <:+ t := List.dropWhile_suffix _

theorem headNot_skip (t : Bytes) : HeadNot isSpaceByte (skip t) := by
  intro b hb
  have h := List.head?_dropWhile_not isSpaceByte t
  rw [← skip, hb] at h
  simpa using h

theorem skip_of_headNot (h : HeadNot isSpaceByte t) : skip t = t := by
  cases t with
  | nil => rfl
  | cons b t => simp [skip, headNot_cons.mp h]

theorem skip_skip (t : Bytes) : skip (skip t) = skip t := skip_of_headNot (headNot_skip t)

theorem skip_append {before : Bytes} (h : before.all isSpaceByte = true) (t : Bytes) :
    skip (before ++ t) = skip t := List.dropWhile_append_of_pos (List.all_eq_true.mp h)

theorem skip_suffix_append (t u : Bytes) : skip u <:+ skip (t ++ u) := by
  induction t with
  | nil => exact List.suffix_rfl
  | cons b t ih =>
    cases hb : isSpaceByte b with
    | true => simpa [skip, hb] using ih
    | false =>
      have hskip : skip (b :: t ++ u) = b :: t ++ u := skip_of_headNot (headNot_cons.mpr hb)
      rw [hskip]
      exact (skip_suffix u).trans (List.suffix_append _ u)

theorem exists_blanks (t : Bytes) :
    ∃ before : Bytes, before.all isSpaceByte = true ∧ t = before ++ skip t :=
  ⟨t.takeWhile isSpaceByte, List.all_takeWhile, List.takeWhile_append_dropWhile.symm⟩

/-- A kind of bytes that no blank belongs to. -/
def Visible (kind : UInt8 → Bool) : Prop := ∀ b, isSpaceByte b = true → kind b = false

theorem Visible.not_space (h : Visible kind) {b : UInt8} (hb : kind b = true) :
    isSpaceByte b = false := by
  cases hspace : isSpaceByte b with
  | false => rfl
  | true =>
    rw [h b hspace] at hb
    cases hb

theorem headNot_blanks (hkind : Visible kind) {before : Bytes}
    (hbefore : before.all isSpaceByte = true) (ht : HeadNot kind t) :
    HeadNot kind (before ++ t) := by
  apply headNot_append ?_ ht
  intro b hb
  exact hkind b (List.all_eq_true.mp hbefore b (List.mem_of_mem_head? hb))

theorem headNot_of_skip (hkind : Visible kind) (h : HeadNot kind (skip t)) : HeadNot kind t := by
  obtain ⟨before, hbefore, ht⟩ := exists_blanks t
  rw [ht]
  exact headNot_blanks hkind hbefore h

variable {r : Bytes}

theorem spaced_self (t : Bytes) : Spaced t t := ⟨[], [], rfl, rfl, by simp⟩

/-- What is read between two suffixes without blanks in front is a token between blanks. -/
theorem exists_spaced {s token m : Bytes} (h : skip s = token ++ m) :
    ∃ t, s = t ++ skip m ∧ Spaced token t := by
  obtain ⟨before, hbefore, hs⟩ := exists_blanks s
  obtain ⟨behind, hbehind, hm⟩ := exists_blanks m
  refine ⟨before ++ token ++ behind, ?_, before, behind, hbefore, hbehind, rfl⟩
  rw [List.append_assoc, ← hm, List.append_assoc, ← h]
  exact hs

theorem skip_spaced {b : UInt8} {token : Bytes} (h : Spaced (b :: token) t)
    (hb : isSpaceByte b = false) (r : Bytes) :
    ∃ behind, behind.all isSpaceByte = true ∧ skip (t ++ r) = (b :: token) ++ (behind ++ r) := by
  obtain ⟨before, behind, hbefore, hbehind, rfl⟩ := h
  refine ⟨behind, hbehind, ?_⟩
  rw [List.append_assoc, List.append_assoc, skip_append hbefore]
  exact skip_of_headNot (headNot_cons.mpr hb)

theorem skip_append_of_cons {b : UInt8} {rest : Bytes} (h : skip t = b :: rest) (r : Bytes) :
    skip (t ++ r) = b :: (rest ++ r) := by
  obtain ⟨before, hbefore, ht⟩ := exists_blanks t
  have hb : isSpaceByte b = false := by
    have hhead := headNot_skip t
    rw [h] at hhead
    exact headNot_cons.mp hhead
  rw [ht, List.append_assoc, skip_append hbefore, h]
  exact skip_of_headNot (headNot_cons.mpr hb)

theorem Spaced.length_pos {b : UInt8} {token : Bytes} (h : Spaced (b :: token) t) :
    0 < t.length := by
  obtain ⟨before, behind, _, _, rfl⟩ := h
  simp only [List.length_append, List.length_cons]
  omega

/-- A text that begins, behind blanks, with a byte of some kind. -/
def Begins (kind : UInt8 → Bool) (t : Bytes) : Prop :=
  ∃ b rest, skip t = b :: rest ∧ kind b = true

theorem Begins.append {kind : UInt8 → Bool} (h : Begins kind t) (r : Bytes) :
    Begins kind (t ++ r) := by
  obtain ⟨b, rest, hskip, hb⟩ := h
  exact ⟨b, rest ++ r, skip_append_of_cons hskip r, hb⟩

theorem Begins.mono {kind kind' : UInt8 → Bool} (h : Begins kind t)
    (hkind : ∀ b, kind b = true → kind' b = true) : Begins kind' t := by
  obtain ⟨b, rest, hskip, hb⟩ := h
  exact ⟨b, rest, hskip, hkind b hb⟩

theorem Begins.headNot {kind kind' : UInt8 → Bool} (h : Begins kind t)
    (hkind : ∀ b, kind b = true → kind' b = false) : HeadNot kind' (skip t) := by
  obtain ⟨b, rest, hskip, hb⟩ := h
  rw [hskip]
  exact headNot_cons.mpr (hkind b hb)

theorem begins_spaced {kind : UInt8 → Bool} {b : UInt8} {token : Bytes}
    (h : Spaced (b :: token) t) (hspace : isSpaceByte b = false) (hb : kind b = true) :
    Begins kind t := by
  obtain ⟨behind, _, hskip⟩ := skip_spaced h hspace []
  rw [List.append_nil] at hskip
  exact ⟨b, _, hskip, hb⟩

theorem headNot_spaced {kind : UInt8 → Bool} {b : UInt8} {token : Bytes}
    (h : Spaced (b :: token) t) (hspace : isSpaceByte b = false) (hb : kind b = false) (r : Bytes) :
    HeadNot kind (skip (t ++ r)) := by
  obtain ⟨behind, _, hskip⟩ := skip_spaced h hspace r
  rw [hskip]
  exact headNot_cons.mpr hb

/-- Where no blank comes first, what a text begins with is its first byte. -/
theorem kind_of_begins {kind : UInt8 → Bool} {b : UInt8} (h : Begins kind (b :: t))
    (hb : isSpaceByte b = false) : kind b = true := by
  obtain ⟨c, rest, hskip, hc⟩ := h
  rw [skip_of_headNot (headNot_cons.mpr hb)] at hskip
  exact (List.cons.inj hskip).1 ▸ hc

/-- A text without blanks is a token without blanks around it. -/
theorem eq_of_spaced {token : Bytes} (h : Spaced token t) (ht : t.any isSpaceByte = false) :
    token = t := by
  obtain ⟨before, behind, hbefore, hbehind, rfl⟩ := h
  have hnil : ∀ {blanks : Bytes}, blanks.all isSpaceByte = true →
      blanks.any isSpaceByte = false → blanks = [] := by
    intro blanks hall hany
    cases blanks with
    | nil => rfl
    | cons b blanks =>
      rw [List.all_cons, Bool.and_eq_true] at hall
      rw [List.any_cons, hall.1] at hany
      cases hany
  rw [List.any_append, List.any_append, Bool.or_eq_false_iff, Bool.or_eq_false_iff] at ht
  rw [hnil hbefore ht.1.1, hnil hbehind ht.2, List.nil_append, List.append_nil]

end Text

end Backtrack
