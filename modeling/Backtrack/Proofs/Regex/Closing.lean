import Backtrack.Regex.Read
import Backtrack.Proofs.Text.Characters

/-!
# A parenthesis behind a pattern

Characters, escapes, properties, ranges and classes are read from a text with a closing parenthesis
behind it as they are from the text alone, unless the parenthesis itself is taken in. Nothing is
left then, and a group that was to be closed by it stays open.

This module does NOT follow the groups.
-/

namespace Backtrack

open Text (HeadNot headNot_cons)

namespace Bytes

variable {mark t : Bytes} {x : UInt8}

/-- A byte that a mark does not have is no part of it. -/
theorem dropStart?_concat (hx : x ∉ mark) (t : Bytes) :
    dropStart? mark (t ++ [x]) = (dropStart? mark t).map (· ++ [x]) := by
  induction mark generalizing t with
  | nil => rfl
  | cons b mark ih =>
    rw [List.mem_cons, not_or] at hx
    cases t with
    | nil => simp only [List.nil_append, dropStart?, if_neg (Ne.symm hx.1), Option.map_none]
    | cons c t =>
      simp only [List.cons_append, dropStart?]
      split
      · exact ih hx.2 t
      · rfl

theorem cut?_nil (hmark : mark ≠ []) : cut? mark [] = none := by
  rw [cut?, if_neg (by simpa using hmark)]

theorem cut?_concat (hmark : mark ≠ []) (hx : x ∉ mark) (t : Bytes) :
    cut? mark (t ++ [x]) = (cut? mark t).map fun (before, behind) => (before, behind ++ [x]) := by
  induction t with
  | nil =>
    have hstart : dropStart? mark [x] = none := by
      have h := dropStart?_concat hx []
      obtain ⟨b, mark, rfl⟩ := List.exists_cons_of_ne_nil hmark
      exact h
    rw [List.nil_append, cut?_nil hmark, cut?, hstart, cut?_nil hmark]
    rfl
  | cons b t ih =>
    have hstart := dropStart?_concat hx (b :: t)
    rw [List.cons_append] at hstart ⊢
    rw [cut?, cut?, hstart, ih]
    cases dropStart? mark (b :: t) with
    | some rest => rfl
    | none =>
      cases cut? mark t <;> rfl

theorem length_dropStart?_le {rest : Bytes} (h : dropStart? mark t = some rest) :
    rest.length ≤ t.length := by
  induction mark generalizing t with
  | nil =>
    cases h
    exact Nat.le_refl _
  | cons b mark ih =>
    cases t with
    | nil => cases h
    | cons c t =>
      simp only [dropStart?] at h
      split at h
      · exact Nat.le_succ_of_le (ih h)
      · cases h

theorem length_cut?_le {before behind : Bytes} (h : cut? mark t = some (before, behind)) :
    behind.length ≤ t.length := by
  induction t generalizing before with
  | nil =>
    unfold cut? at h
    split at h
    · cases h
      exact Nat.le_refl _
    · cases h
  | cons b t ih =>
    rw [cut?] at h
    split at h
    · rename_i rest hrest
      cases h
      exact length_dropStart?_le hrest
    · obtain ⟨⟨before', behind'⟩, hcut, heq⟩ := Option.map_eq_some_iff.mp h
      cases heq
      exact Nat.le_succ_of_le (ih hcut)

end Bytes

theorem Utf8.length_encode (c : Char) : (encode c).length = c.utf8Size := by
  have hsize : c.utf8Size =
      if c.toNat ≤ 127 then 1 else if c.toNat ≤ 2047 then 2
      else if c.toNat ≤ 65535 then 3 else 4 := by
    simp only [Char.utf8Size, UInt32.le_iff_toNat_le, UInt32.toNat_ofNatLT]
    rfl
  rw [hsize]
  unfold encode
  dsimp only
  by_cases h₁ : c.toNat < 0x80
  · rw [if_pos h₁, if_pos (by omega)]
    rfl
  rw [if_neg h₁, if_neg (show ¬ c.toNat ≤ 127 by omega)]
  by_cases h₂ : c.toNat < 0x800
  · rw [if_pos h₂, if_pos (by omega)]
    rfl
  rw [if_neg h₂, if_neg (show ¬ c.toNat ≤ 2047 by omega)]
  by_cases h₃ : c.toNat < 0x10000
  · rw [if_pos h₃, if_pos (by omega)]
    rfl
  · rw [if_neg h₃, if_neg (by omega)]
    rfl

namespace Regex

def closing : UInt8 := 41

theorem nextChar_closing {t left' : Bytes} {c : Char}
    (h : nextChar (t ++ [closing]) = .ok (c, left')) :
    (t = [] ∧ c = ')' ∧ left' = []) ∨
      ∃ left, left' = left ++ [closing] ∧ nextChar t = .ok (c, left) ∧ left.length < t.length := by
  cases t with
  | nil =>
    left
    cases h
    decide
  | cons b t =>
    right
    unfold nextChar at h ⊢
    dsimp only [List.cons_append] at h ⊢
    rw [← List.cons_append] at h
    cases hread : Utf8.strict? ((b :: t) ++ [closing]) with
    | none =>
      rw [hread] at h
      cases h
    | some r =>
      obtain ⟨ch, width⟩ := r
      rw [hread] at h
      cases h
      have hread' := Utf8.strict?_of_append (List.cons_ne_nil b t) (headNot_cons.mpr rfl) hread
      obtain ⟨hpos, hwidth⟩ := Utf8.strict?_width hread'
      rw [hread', List.drop_append_of_le_length hwidth]
      refine ⟨_, rfl, rfl, ?_⟩
      rw [List.length_drop]
      omega

theorem utf8Size_le_of_nextChar {t left : Bytes} {c : Char} (ht : t ≠ [])
    (h : nextChar t = .ok (c, left)) : c.utf8Size ≤ t.length := by
  obtain ⟨b, t, rfl⟩ := List.exists_cons_of_ne_nil ht
  simp only [nextChar] at h
  split at h
  · rename_i ch width hread
    cases h
    have hwidth := congrArg List.length (Utf8.take_of_strict? hread)
    rw [Utf8.length_encode, List.length_take] at hwidth
    omega
  · cases h

/-- A closing parenthesis is no octal digit. -/
theorem readOctal_closing (n value : Nat) (t : Bytes) :
    readOctal n value (t ++ [closing]) =
      ((readOctal n value t).1, (readOctal n value t).2 ++ [closing]) := by
  induction n generalizing value t with
  | zero => cases t <;> rfl
  | succ n ih =>
    cases t with
    | nil => rfl
    | cons b t =>
      simp only [List.cons_append, readOctal]
      split
      · exact ih _ t
      · rfl

theorem length_readOctal_le (n value : Nat) (t : Bytes) :
    (readOctal n value t).2.length ≤ t.length := by
  induction n generalizing value t with
  | zero => cases t <;> exact Nat.le_refl _
  | succ n ih =>
    cases t with
    | nil => exact Nat.le_refl _
    | cons b t =>
      rw [readOctal]
      split
      · exact Nat.le_succ_of_le (ih _ t)
      · exact Nat.le_refl _

theorem ok_bind {α β : Type} (a : α) (f : α → Reading β) : (Except.ok a >>= f) = f a := rfl

theorem bind_eq_ok {α β : Type} {m : Reading α} {f : α → Reading β} {b : β} :
    (m >>= f) = .ok b ↔ ∃ a, m = .ok a ∧ f a = .ok b := by
  cases m with
  | error e =>
    constructor
    · intro h
      cases h
    · rintro ⟨a, h, -⟩
      cases h
  | ok a =>
    constructor
    · intro h
      exact ⟨a, rfl, h⟩
    · rintro ⟨a', h, hf⟩
      cases h
      exact hf

theorem readBraced_succ {t : Bytes} (ht : t ≠ []) (fuel : Nat) (value : Option Nat) :
    readBraced (fuel + 1) value t = (do
      let (c, rest) ← nextChar t
      if c = '\x7d' then return (value, rest)
      match hexChar? c with
      | none => return (none, rest)
      | some v =>
        let n := value.getD 0 * 16 + v
        if 0x10FFFF < n then return (none, rest)
        readBraced fuel (some n) rest) := by
  obtain ⟨b, t, rfl⟩ := List.exists_cons_of_ne_nil ht
  rfl

/-- Digits in braces end with a closing brace, so they end in front of the parenthesis. -/
theorem readBraced_closing {fuel' fuel : Nat} {value : Option Nat} {t left' : Bytes} {n : Nat}
    (hfuel : t.length ≤ fuel)
    (h : readBraced fuel' value (t ++ [closing]) = .ok (some n, left')) :
    ∃ left, left' = left ++ [closing] ∧ readBraced fuel value t = .ok (some n, left) ∧
      left.length < t.length := by
  induction fuel' generalizing fuel value t with
  | zero => cases h
  | succ fuel' ih =>
    rw [readBraced_succ (by simp)] at h
    obtain ⟨⟨c, rest'⟩, hread, h⟩ := bind_eq_ok.mp h
    dsimp only at h
    rcases nextChar_closing hread with ⟨rfl, rfl, rfl⟩ | ⟨rest, rfl, hread, hless⟩
    · cases h
    obtain ⟨fuel, rfl⟩ : ∃ k, fuel = k + 1 := ⟨fuel - 1, by omega⟩
    have ht : t ≠ [] := List.ne_nil_of_length_pos (by omega)
    rw [readBraced_succ ht, hread]
    show ∃ left, left' = _ ∧ (if c = '\x7d' then _ else _) = _ ∧ _
    split at h
    · rename_i hc
      cases h
      exact ⟨rest, rfl, if_pos hc, hless⟩
    rename_i hc
    rw [if_neg hc]
    cases hhex : hexChar? c with
    | none =>
      rw [hhex] at h
      cases h
    | some v =>
      rw [hhex] at h
      dsimp only at h ⊢
      split at h
      · cases h
      rename_i hrange
      rw [if_neg hrange]
      obtain ⟨left, hleft, hrest, hlength⟩ := ih (show rest.length ≤ fuel by omega) h
      exact ⟨left, hleft, hrest, by omega⟩

/-- A reading of a text alone, and one of the text with the parenthesis behind it. The second takes
the parenthesis in, or the first reads the same and leaves all but the parenthesis. -/
def Survives {α : Type} (t : Bytes) (m m' : Reading (α × Bytes)) : Prop :=
  ∀ a left', m' = .ok (a, left') →
    left' = [] ∨ ∃ left, left' = left ++ [closing] ∧ m = .ok (a, left) ∧ left.length < t.length

/-- The code point that two hexadecimal digits give, or some in braces. -/
def readHex (s t : Bytes) : Reading (Nat × Bytes) := do
  if t.isEmpty then throw ⟨.invalidEscape, consumed s t⟩
  let (d, u) ← nextChar t
  if d = '\x7b' then
    match ← readBraced u.length none u with
    | (some n, rest) => return (n, rest)
    | (none, rest) => throw ⟨.invalidEscape, consumed s rest⟩
  else
    let (e, v) ← nextChar u
    match hexChar? d, hexChar? e with
    | some x, some y => return (x * 16 + y, v)
    | _, _ => throw ⟨.invalidEscape, consumed s v⟩

/-- The code point that an octal number gives, or a mark that stands for itself. -/
def readMark (s : Bytes) (n : Nat) (t : Bytes) : Reading (Nat × Bytes) :=
  if n = 48 || (49 ≤ n && n ≤ 55 && (t.head?).any isOctal) then return readOctal 2 (n - 48) t
  else if n < 128 && !Bytes.isDigit n.toUInt8 && !Bytes.isLetter n.toUInt8 then return (n, t)
  else throw ⟨.invalidEscape, consumed s t⟩

theorem readEscape_cons (b : UInt8) {t : Bytes} (ht : t ≠ []) : readEscape (b :: t) = (do
    let (c, u) ← nextChar t
    match c with
    | 'a' => return (7, u)
    | 'f' => return (12, u)
    | 'n' => return (10, u)
    | 'r' => return (13, u)
    | 't' => return (9, u)
    | 'v' => return (11, u)
    | 'x' => readHex (b :: t) u
    | _ => readMark (b :: t) c.toNat u) := by
  have hdrop : List.drop 1 (b :: t) = t := rfl
  unfold readEscape
  dsimp only
  rw [hdrop, if_neg (by simpa using ht)]
  rfl

/-- The parenthesis is no hexadecimal digit and no brace. -/
theorem readHex_closing {s s' t left' : Bytes} {n : Nat}
    (h : readHex s' (t ++ [closing]) = .ok (n, left')) :
    ∃ left, left' = left ++ [closing] ∧ readHex s t = .ok (n, left) ∧ left.length < t.length := by
  unfold readHex at h
  rw [if_neg (by simp)] at h
  obtain ⟨⟨d, u'⟩, hd, h⟩ := bind_eq_ok.mp h
  rcases nextChar_closing hd with ⟨rfl, rfl, rfl⟩ | ⟨u, rfl, hd, hu⟩
  · cases h
  have ht : t ≠ [] := List.ne_nil_of_length_pos (by omega)
  unfold readHex
  rw [if_neg (by simpa using ht)]
  simp only [hd, ok_bind] at h ⊢
  split at h
  · rename_i hbrace
    obtain ⟨⟨value, rest⟩, hdigits, h⟩ := bind_eq_ok.mp h
    cases value with
    | none => cases h
    | some m =>
      cases h
      obtain ⟨left, hleft, hdigits, hless⟩ := readBraced_closing (Nat.le_refl _) hdigits
      rw [if_pos hbrace, hdigits]
      exact ⟨left, hleft, rfl, by omega⟩
  · rename_i hbrace
    rw [if_neg hbrace]
    obtain ⟨⟨e, v'⟩, he, h⟩ := bind_eq_ok.mp h
    dsimp only at h
    split at h
    · rename_i x y hx hy
      cases h
      rcases nextChar_closing he with ⟨rfl, rfl, rfl⟩ | ⟨v, rfl, he, hv⟩
      · cases hy
      refine ⟨v, rfl, ?_, by omega⟩
      simp only [he, ok_bind, hx, hy]
      rfl
    · cases h

theorem readMark_closing {s s' t left' : Bytes} {m n : Nat}
    (h : readMark s' m (t ++ [closing]) = .ok (n, left')) :
    ∃ left, left' = left ++ [closing] ∧ readMark s m t = .ok (n, left) ∧
      left.length ≤ t.length := by
  have hoctal : (t ++ [closing]).head?.any isOctal = t.head?.any isOctal := by
    cases t <;> rfl
  unfold readMark at h ⊢
  rw [hoctal, readOctal_closing] at h
  split at h
  · rename_i hnumber
    cases h
    exact ⟨_, rfl, if_pos hnumber, length_readOctal_le 2 (m - 48) t⟩
  rename_i hnumber
  rw [if_neg hnumber]
  split at h
  · rename_i hplain
    cases h
    exact ⟨t, rfl, if_pos hplain, Nat.le_refl _⟩
  · cases h

theorem readEscape_closing (b : UInt8) (t : Bytes) :
    Survives (b :: t) (readEscape (b :: t)) (readEscape (b :: t ++ [closing])) := by
  intro n left' h
  rw [List.cons_append, readEscape_cons b (by simp)] at h
  obtain ⟨⟨c, u'⟩, hread, h⟩ := bind_eq_ok.mp h
  rcases nextChar_closing hread with ⟨rfl, rfl, rfl⟩ | ⟨u, rfl, hread, hless⟩
  · left
    cases h
    rfl
  right
  have hlength : u.length < (b :: t).length := by
    rw [List.length_cons]
    omega
  rw [readEscape_cons b (List.ne_nil_of_length_pos (by omega)), hread, ok_bind]
  dsimp only at h ⊢
  split at h
  case h_7 =>
    obtain ⟨left, hleft, hhex, hless'⟩ := readHex_closing h
    exact ⟨left, hleft, hhex, by omega⟩
  case h_8 =>
    obtain ⟨left, hleft, hmark, hle⟩ := readMark_closing h
    exact ⟨left, hleft, hmark, by omega⟩
  all_goals
    cases h
    exact ⟨u, rfl, rfl, hlength⟩

/-- Readings that may find nothing: what is found with the parenthesis behind the text survives, and
if nothing is found then, nothing is found in the text alone. -/
structure SurvivesIfAny {α : Type} (t : Bytes) (m m' : Reading (Option (α × Bytes))) : Prop where
  nothing : m' = .ok none → m = .ok none
  something : ∀ a left', m' = .ok (some (a, left')) → left' = [] ∨ ∃ left,
    left' = left ++ [closing] ∧ m = .ok (some (a, left)) ∧ left.length < t.length

/-- A reading that never finds nothing. -/
theorem SurvivesIfAny.of_some {α : Type} {t : Bytes} {m m' : Reading (Option (α × Bytes))}
    (h : ∀ found, m' = .ok found → ∃ a left', found = some (a, left') ∧ (left' = [] ∨ ∃ left,
      left' = left ++ [closing] ∧ m = .ok (some (a, left)) ∧ left.length < t.length)) :
    SurvivesIfAny t m m' := by
  constructor
  · intro hnone
    obtain ⟨a, left', heq, -⟩ := h none hnone
    cases heq
  · intro a left' hsome
    obtain ⟨a', left'', heq, hleft⟩ := h _ hsome
    cases heq
    exact hleft

theorem readShortClass?_closing (ignoreCase : Bool) (t : Bytes) :
    readShortClass? ignoreCase (t ++ [closing]) =
      (readShortClass? ignoreCase t).map fun (c, left) => (c, left ++ [closing]) := by
  rcases t with _ | ⟨a, _ | ⟨b, rest⟩⟩
  · rfl
  · by_cases ha : a = 92
    · subst ha
      cases ignoreCase <;> rfl
    · simp [readShortClass?, ha]
  · by_cases ha : a = 92
    · subst ha
      simp only [List.cons_append, readShortClass?, Option.map_map, Function.comp_def]
    · simp [readShortClass?, ha]

theorem length_readShortClass? {ignoreCase : Bool} {t left : Bytes} {c : CharClass}
    (h : readShortClass? ignoreCase t = some (c, left)) : left.length < t.length := by
  unfold readShortClass? at h
  split at h
  · obtain ⟨c', hc, heq⟩ := Option.map_eq_some_iff.mp h
    cases heq
    simp only [List.length_cons]
    omega
  · cases h

theorem readShortClass?_survives (ignoreCase : Bool) (t : Bytes) :
    SurvivesIfAny t (.ok (readShortClass? ignoreCase t))
      (.ok (readShortClass? ignoreCase (t ++ [closing]))) := by
  rw [readShortClass?_closing]
  cases hshort : readShortClass? ignoreCase t with
  | none => exact ⟨id, fun _ _ h => (by cases h)⟩
  | some found =>
    refine ⟨fun h => (by cases h), fun c left' h => .inr ?_⟩
    cases h
    exact ⟨_, rfl, rfl, length_readShortClass? hshort⟩

theorem readPosixClass?_of_ne {ignoreCase : Bool} {t : Bytes} (ht : ∀ rest, t ≠ 91 :: 58 :: rest) :
    readPosixClass? ignoreCase t = .ok none := by
  unfold readPosixClass?
  split
  · exact absurd rfl (ht _)
  · rfl

/-- The first byte is the same, if it is not the parenthesis. -/
theorem head?_closing {b : UInt8} (hb : b ≠ closing) (t : Bytes) :
    (t ++ [closing]).head? = some b ↔ t.head? = some b := by
  cases t with
  | nil => simpa using hb.symm
  | cons a t => exact Iff.rfl

/-- A text with the parenthesis behind it that begins with two bytes begins with them alone, if the
second is not the parenthesis. -/
theorem exists_of_append_closing {t rest : Bytes} {a b : UInt8} (hb : b ≠ closing)
    (h : t ++ [closing] = a :: b :: rest) : ∃ u, t = a :: b :: u := by
  rcases t with _ | ⟨a', _ | ⟨b', u⟩⟩
  · cases h
  · simp only [List.cons_append, List.nil_append, List.cons.injEq] at h
    exact absurd h.2.1.symm hb
  · simp only [List.cons_append, List.cons.injEq] at h
    exact ⟨u, by rw [h.1, h.2.1]⟩

theorem readPosixClass?_closing (ignoreCase : Bool) (t : Bytes) :
    SurvivesIfAny t (readPosixClass? ignoreCase t)
      (readPosixClass? ignoreCase (t ++ [closing])) := by
  by_cases ht : ∃ rest, t = 91 :: 58 :: rest
  · obtain ⟨rest, rfl⟩ := ht
    simp only [List.cons_append, readPosixClass?]
    rw [Bytes.cut?_concat (by decide) (by decide)]
    cases hcut : Bytes.cut? ":]" rest with
    | none => exact ⟨fun _ => rfl, fun _ _ h => (by cases h)⟩
    | some r =>
      obtain ⟨name, left⟩ := r
      have hle := Bytes.length_cut?_le hcut
      simp only [Option.map_some]
      generalize List.find? _ posixClasses = found
      cases found with
      | none => exact ⟨fun h => (by cases h), fun _ _ h => (by cases h)⟩
      | some known =>
        refine ⟨fun h => (by cases h), fun c left' h => .inr ?_⟩
        cases h
        refine ⟨left, rfl, rfl, ?_⟩
        simp only [List.length_cons]
        omega
  · have hnone : readPosixClass? ignoreCase t = .ok none :=
      readPosixClass?_of_ne fun rest h => ht ⟨rest, h⟩
    have hnone' : readPosixClass? ignoreCase (t ++ [closing]) = .ok none :=
      readPosixClass?_of_ne fun rest h => ht (exists_of_append_closing (by decide) h)
    rw [hnone, hnone']
    exact ⟨id, fun _ _ h => (by cases h)⟩

theorem readProperty?_of_ne {ignoreCase : Bool} {t : Bytes}
    (ht : ∀ b rest, t = 92 :: b :: rest → b ≠ 112 ∧ b ≠ 80) :
    readProperty? ignoreCase t = .ok none := by
  unfold readProperty?
  split
  · rename_i p rest
    obtain ⟨h₁, h₂⟩ := ht p rest rfl
    rw [if_pos]
    simpa using ⟨h₁, h₂⟩
  · rfl

def namedProperty (ignoreCase positive : Bool) (s name left : Bytes) :
    Reading (Option (CharClass × Bytes)) :=
  let (positive, name) :=
    match name with
    | 94 :: plain => (!positive, plain)
    | _ => (positive, name)
  match propertyClass? name with
  | some c => return some (signed positive (caseAware ignoreCase c), left)
  | none => throw ⟨.invalidCharRange, consumed s left⟩

theorem readProperty?_eq (ignoreCase : Bool) {p : UInt8} (hp : p = 112 ∨ p = 80) (t : Bytes) :
    readProperty? ignoreCase (92 :: p :: t) = (do
      let s := 92 :: p :: t
      let positive := decide (p = Bytes.ascii 'p')
      let (c, left) ← nextChar t
      if c ≠ '\x7b' then namedProperty ignoreCase positive s (t.take c.utf8Size) left
      else
        match Bytes.cut? "\x7d" (t.drop 1) with
        | some (name, left) => do
          checkUtf8 0 name
          namedProperty ignoreCase positive s name left
        | none => do
          checkUtf8 0 s
          throw ⟨.invalidCharRange, s⟩) := by
  have hcond : ¬ (decide (p ≠ Bytes.ascii 'p') && decide (p ≠ Bytes.ascii 'P')) = true := by
    rcases hp with rfl | rfl <;> decide
  simp only [readProperty?]
  rw [if_neg hcond]
  rfl

theorem namedProperty_eq_ok {ignoreCase positive : Bool} {s name left : Bytes}
    {found : Option (CharClass × Bytes)}
    (h : namedProperty ignoreCase positive s name left = .ok found) :
    ∃ c, found = some (c, left) ∧ ∀ s' left',
      namedProperty ignoreCase positive s' name left' = .ok (some (c, left')) := by
  unfold namedProperty at h ⊢
  dsimp only at h ⊢
  generalize propertyClass? _ = class? at h ⊢
  cases class? with
  | none => cases h
  | some c =>
    cases h
    exact ⟨_, rfl, fun _ _ => rfl⟩

theorem readProperty?_closing (ignoreCase : Bool) (t : Bytes) :
    SurvivesIfAny t (readProperty? ignoreCase t) (readProperty? ignoreCase (t ++ [closing])) := by
  by_cases ht : ∃ p rest, t = 92 :: p :: rest ∧ (p = 112 ∨ p = 80)
  · obtain ⟨p, rest, rfl, hp⟩ := ht
    rw [List.cons_append, List.cons_append, readProperty?_eq ignoreCase hp,
      readProperty?_eq ignoreCase hp]
    dsimp only
    generalize decide (p = Bytes.ascii 'p') = positive
    apply SurvivesIfAny.of_some
    intro found h
    obtain ⟨⟨c, after'⟩, hread, h⟩ := bind_eq_ok.mp h
    dsimp only at h
    rcases nextChar_closing hread with ⟨rfl, rfl, rfl⟩ | ⟨after, rfl, hread, hless⟩
    · rw [if_pos (by decide)] at h
      obtain ⟨c, rfl, -⟩ := namedProperty_eq_ok h
      exact ⟨c, [], rfl, .inl rfl⟩
    have hrest : rest ≠ [] := List.ne_nil_of_length_pos (by omega)
    rw [hread]
    dsimp only [ok_bind]
    by_cases hbrace : c ≠ '\x7b'
    · rw [if_pos hbrace, List.take_append_of_le_length (utf8Size_le_of_nextChar hrest hread)] at h
      obtain ⟨d, rfl, hnamed⟩ := namedProperty_eq_ok h
      refine ⟨d, _, rfl, .inr ⟨after, rfl, ?_, ?_⟩⟩
      · rw [if_pos hbrace, hnamed]
      · simp only [List.length_cons]
        omega
    · rw [if_neg hbrace] at h
      have hdrop : (rest ++ [closing]).drop 1 = rest.drop 1 ++ [closing] := by
        obtain ⟨b, rest, rfl⟩ := List.exists_cons_of_ne_nil hrest
        rfl
      rw [hdrop, Bytes.cut?_concat (by decide) (by decide)] at h
      cases hcut : Bytes.cut? "\x7d" (rest.drop 1) with
      | none =>
        rw [hcut] at h
        obtain ⟨_, _, h⟩ := bind_eq_ok.mp h
        cases h
      | some r =>
        obtain ⟨name, left⟩ := r
        rw [hcut] at h
        obtain ⟨_, hvalid, h⟩ := bind_eq_ok.mp h
        obtain ⟨d, rfl, hnamed⟩ := namedProperty_eq_ok h
        have hle := Bytes.length_cut?_le hcut
        refine ⟨d, _, rfl, .inr ⟨left, rfl, ?_, ?_⟩⟩
        · rw [if_neg hbrace]
          show (checkUtf8 0 name >>= _) = _
          rw [hvalid, ok_bind, hnamed]
        · rw [List.length_drop] at hle
          simp only [List.length_cons]
          omega
  · have hnone : readProperty? ignoreCase t = .ok none := by
      apply readProperty?_of_ne
      intro p rest heq
      exact not_or.mp fun hp => ht ⟨p, rest, heq, hp⟩
    have hnone' : readProperty? ignoreCase (t ++ [closing]) = .ok none := by
      apply readProperty?_of_ne
      intro p rest heq
      apply not_or.mp
      intro hp
      have hclosing : p ≠ closing := by
        rcases hp with rfl | rfl <;> decide
      obtain ⟨u, rfl⟩ := exists_of_append_closing hclosing heq
      exact ht ⟨p, u, rfl, hp⟩
    rw [hnone, hnone']
    exact ⟨id, fun _ _ h => (by cases h)⟩

theorem readClassChar_of_ne {whole t : Bytes} {b : UInt8} (hb : b ≠ 92) :
    readClassChar whole (b :: t) = (do
      let (c, rest) ← nextChar (b :: t)
      return (c.toNat, rest)) := by
  unfold readClassChar
  split
  · rename_i h
    cases h
  · rename_i h
    cases h
    exact absurd rfl hb
  · rfl

theorem readClassChar_closing (whole whole' t : Bytes) :
    Survives t (readClassChar whole t) (readClassChar whole' (t ++ [closing])) := by
  intro n left' h
  rcases t with _ | ⟨b, t⟩
  · left
    cases h
    rfl
  · by_cases hb : b = 92
    · subst hb
      exact readEscape_closing 92 t n left' h
    right
    rw [List.cons_append, readClassChar_of_ne hb] at h
    rw [readClassChar_of_ne hb]
    obtain ⟨⟨c, u'⟩, hread, h⟩ := bind_eq_ok.mp h
    cases h
    rw [← List.cons_append] at hread
    rcases nextChar_closing hread with ⟨h, -⟩ | ⟨u, rfl, hread, hless⟩
    · cases h
    · rw [hread]
      exact ⟨u, rfl, rfl, hless⟩

/-- Where a reading finds nothing, another one follows. -/
theorem SurvivesIfAny.orElse {α : Type} {t : Bytes} {m m' : Reading (Option (α × Bytes))}
    {f f' : Option (α × Bytes) → Reading (α × Bytes)} (h : SurvivesIfAny t m m')
    (hsome : ∀ found, f (some found) = .ok found ∧ f' (some found) = .ok found)
    (hnone : Survives t (f none) (f' none)) : Survives t (m >>= f) (m' >>= f') := by
  intro a left' hread
  obtain ⟨found, hfound, hread⟩ := bind_eq_ok.mp hread
  cases found with
  | none =>
    rw [h.nothing hfound]
    exact hnone a left' hread
  | some found =>
    rw [(hsome found).2] at hread
    cases hread
    rcases h.something a left' hfound with hleft | ⟨left, hleft, hfound, hless⟩
    · exact .inl hleft
    · refine .inr ⟨left, hleft, ?_, hless⟩
      rw [hfound, ok_bind]
      exact (hsome _).1

theorem SurvivesIfAny.orElseIfAny {α : Type} {t : Bytes} {m m' : Reading (Option (α × Bytes))}
    {f f' : Option (α × Bytes) → Reading (Option (α × Bytes))} (h : SurvivesIfAny t m m')
    (hsome : ∀ found, f (some found) = .ok (some found) ∧ f' (some found) = .ok (some found))
    (hnone : SurvivesIfAny t (f none) (f' none)) : SurvivesIfAny t (m >>= f) (m' >>= f') := by
  constructor
  · intro hread
    obtain ⟨found, hfound, hread⟩ := bind_eq_ok.mp hread
    cases found with
    | none =>
      rw [h.nothing hfound]
      exact hnone.nothing hread
    | some found =>
      rw [(hsome found).2] at hread
      cases hread
  · intro a left' hread
    obtain ⟨found, hfound, hread⟩ := bind_eq_ok.mp hread
    cases found with
    | none =>
      rw [h.nothing hfound]
      exact hnone.something a left' hread
    | some found =>
      rw [(hsome found).2] at hread
      cases hread
      rcases h.something a left' hfound with hleft | ⟨left, hleft, hfound, hless⟩
      · exact .inl hleft
      · refine .inr ⟨left, hleft, ?_, hless⟩
        rw [hfound, ok_bind]
        exact (hsome _).1

/-- What follows the first character of a range: nothing that counts, or the last character. -/
theorem readClassRange_of_ne {ignoreCase : Bool} {whole t rest : Bytes} {lo : Nat}
    (hlo : readClassChar whole t = .ok (lo, rest)) (hrest : ∀ b more, rest ≠ 45 :: b :: more) :
    readClassRange ignoreCase whole t = .ok (caseAware ignoreCase (.ranges [(lo, lo)]), rest) := by
  unfold readClassRange
  rw [hlo, ok_bind]
  dsimp only
  split
  · exact absurd rfl (hrest _ _)
  · rfl

theorem readClassRange_dash {ignoreCase : Bool} {whole t more : Bytes} {lo : Nat} {b : UInt8}
    (hlo : readClassChar whole t = .ok (lo, 45 :: b :: more)) :
    readClassRange ignoreCase whole t =
      if b = Bytes.ascii ']' then .ok (caseAware ignoreCase (.ranges [(lo, lo)]), 45 :: b :: more)
      else do
        let (hi, left) ← readClassChar whole (b :: more)
        if hi < lo then throw ⟨.invalidCharRange, consumed t left⟩
        return (caseAware ignoreCase (.ranges [(lo, hi)]), left) := by
  unfold readClassRange
  rw [hlo]
  rfl

theorem readClassRange_closing (ignoreCase : Bool) (whole whole' t : Bytes) :
    Survives t (readClassRange ignoreCase whole t)
      (readClassRange ignoreCase whole' (t ++ [closing])) := by
  intro c left' h
  obtain ⟨⟨lo, rest'⟩, hlo', -⟩ := bind_eq_ok.mp h
  rcases readClassChar_closing whole whole' t lo rest' hlo' with rfl | ⟨rest, rfl, hlo, hless⟩
  · rw [readClassRange_of_ne hlo' (by simp)] at h
    cases h
    exact .inl rfl
  by_cases hrange : ∃ b more, rest ++ [closing] = 45 :: b :: more
  · obtain ⟨b, more', hrest⟩ := hrange
    rw [hrest] at hlo'
    rw [readClassRange_dash hlo'] at h
    rcases rest with _ | ⟨a, _ | ⟨b', more⟩⟩
    · cases hrest
    · -- The parenthesis is the last character of the range.
      cases hrest
      left
      rw [if_neg (by decide)] at h
      obtain ⟨⟨hi, left⟩, hhi, h⟩ := bind_eq_ok.mp h
      cases hhi
      dsimp only at h
      split at h
      · cases h
      · cases h
        rfl
    · simp only [List.cons_append, List.cons.injEq] at hrest
      obtain ⟨rfl, rfl, rfl⟩ := hrest
      rw [readClassRange_dash hlo]
      split at h
      · rename_i hbracket
        cases h
        rw [if_pos hbracket]
        exact .inr ⟨_, rfl, rfl, hless⟩
      · rename_i hbracket
        rw [if_neg hbracket]
        obtain ⟨⟨hi, left⟩, hhi, h⟩ := bind_eq_ok.mp h
        dsimp only at h
        split at h
        · cases h
        rename_i hle
        cases h
        rw [← List.cons_append] at hhi
        rcases readClassChar_closing whole whole' _ hi _ hhi with rfl | ⟨left, rfl, hhi, hless'⟩
        · exact .inl rfl
        · refine .inr ⟨left, rfl, ?_, ?_⟩
          · rw [hhi, ok_bind]
            exact if_neg hle
          · simp only [List.length_cons] at hless hless'
            omega
  · rw [readClassRange_of_ne hlo' fun b more heq => hrange ⟨b, more, heq⟩] at h
    cases h
    refine .inr ⟨rest, rfl, ?_, hless⟩
    apply readClassRange_of_ne hlo
    rintro b more rfl
    exact hrange ⟨b, more ++ [closing], rfl⟩

theorem readClassMember_closing (ignoreCase : Bool) (whole whole' t : Bytes) :
    Survives t (readClassMember ignoreCase whole t)
      (readClassMember ignoreCase whole' (t ++ [closing])) := by
  apply (readPosixClass?_closing ignoreCase t).orElse fun _ => ⟨rfl, rfl⟩
  apply (readProperty?_closing ignoreCase t).orElse fun _ => ⟨rfl, rfl⟩
  dsimp only
  rw [readShortClass?_closing]
  cases hshort : readShortClass? ignoreCase t with
  | none => exact readClassRange_closing ignoreCase whole whole' t
  | some found =>
    intro c left' h
    cases h
    exact .inr ⟨_, rfl, rfl, length_readShortClass? hshort⟩

theorem readClassMembers_nil (ignoreCase first : Bool) (whole : Bytes) (fuel : Nat)
    (c : CharClass) : readClassMembers ignoreCase whole fuel first c [] =
      .error ⟨.missingBracket, whole⟩ := by
  cases fuel <;> cases first <;> rfl

theorem readClassMembers_closing {ignoreCase first : Bool} {whole whole' t left' : Bytes}
    {fuel' fuel : Nat} {c d : CharClass} (hfuel : t.length < fuel)
    (h : readClassMembers ignoreCase whole' fuel' first c (t ++ [closing]) = .ok (d, left')) :
    ∃ left, left' = left ++ [closing] ∧ left.length ≤ t.length ∧
      readClassMembers ignoreCase whole fuel first c t = .ok (d, left) := by
  induction fuel' generalizing fuel first c t with
  | zero => cases h
  | succ fuel' ih =>
    obtain ⟨fuel, rfl⟩ : ∃ k, fuel = k + 1 := ⟨fuel - 1, by omega⟩
    rw [readClassMembers] at h ⊢
    have hbracket : Bytes.ascii ']' ≠ closing := by decide
    simp only [head?_closing hbracket] at h
    split at h
    · rename_i hclose
      cases h
      rw [if_pos hclose]
      obtain ⟨b, u, rfl⟩ := List.exists_cons_of_ne_nil (show t ≠ [] by rintro rfl; simp at hclose)
      exact ⟨u, rfl, Nat.le_succ _, rfl⟩
    · rename_i hopen
      rw [if_neg hopen]
      obtain ⟨⟨member, rest'⟩, hmember, h⟩ := bind_eq_ok.mp h
      rcases readClassMember_closing ignoreCase whole whole' t member rest' hmember with
        rfl | ⟨rest, rfl, hmember, hless⟩
      · rw [readClassMembers_nil] at h
        cases h
      · obtain ⟨left, hleft, hle, hrest⟩ := ih (show rest.length < fuel by omega) h
        refine ⟨left, hleft, by omega, ?_⟩
        rw [hmember]
        exact hrest

/-- The members of a class and whether they are meant. -/
def readSigned (ignoreCase positive : Bool) (s t : Bytes) : Reading (CharClass × Bytes) := do
  let (c, rest) ← readClassMembers ignoreCase s (s.length + 1) true .none t
  return (signed positive c, rest)

theorem readClass_negated (ignoreCase : Bool) (b : UInt8) (t : Bytes) :
    readClass ignoreCase (b :: 94 :: t) = readSigned ignoreCase false (b :: 94 :: t) t := rfl

theorem readClass_plain (ignoreCase : Bool) (b : UInt8) {t : Bytes}
    (ht : t.head? ≠ some (Bytes.ascii '^')) :
    readClass ignoreCase (b :: t) = readSigned ignoreCase true (b :: t) t := by
  have hdrop : (b :: t).drop 1 = t := rfl
  unfold readClass
  dsimp only
  rw [hdrop, decide_eq_true ht]
  simp only [ne_eq, ht, not_false_eq_true, if_true]
  rfl

theorem readSigned_closing {ignoreCase positive : Bool} {s s' t : Bytes}
    (hlength : t.length < s.length) :
    Survives s (readSigned ignoreCase positive s t)
      (readSigned ignoreCase positive s' (t ++ [closing])) := by
  intro c left' h
  obtain ⟨⟨d, rest'⟩, hmembers, h⟩ := bind_eq_ok.mp h
  cases h
  obtain ⟨rest, rfl, hle, hmembers⟩ :=
    readClassMembers_closing (Nat.lt_succ_of_lt hlength) hmembers
  refine .inr ⟨rest, rfl, ?_, by omega⟩
  unfold readSigned
  rw [hmembers]
  rfl

theorem readClass_closing (ignoreCase : Bool) (b : UInt8) (t : Bytes) :
    Survives (b :: t) (readClass ignoreCase (b :: t))
      (readClass ignoreCase (b :: t ++ [closing])) := by
  by_cases ht : t.head? = some (Bytes.ascii '^')
  · obtain ⟨a, u, rfl⟩ := List.exists_cons_of_ne_nil (show t ≠ [] by rintro rfl; simp at ht)
    obtain rfl : a = 94 := Option.some.inj ht
    simp only [List.cons_append, readClass_negated]
    apply readSigned_closing
    simp only [List.length_cons]
    omega
  · have ht' : (t ++ [closing]).head? ≠ some (Bytes.ascii '^') := by
      rwa [Ne, head?_closing (by decide)]
    rw [List.cons_append, readClass_plain ignoreCase b ht, readClass_plain ignoreCase b ht']
    exact readSigned_closing (Nat.lt_succ_self t.length)

end Regex
end Backtrack
