import Backtrack.Proofs.Parser.Choices
import Backtrack.Proofs.Parser.Tokens

/-!
# Literals and the characters of them

A literal compares bytes; a term for a character decodes what is left of the text, where a byte that
starts no character is read as U+FFFD. A character other than U+FFFD is only decoded from the bytes
that it is written with, whatever stands around them. So a well-formed literal without U+FFFD
matches where its characters do one after another, also inside another character or next to stray
bytes.

Where they do NOT match, the two may miss at different places: a literal misses where it starts, a
sequence where its first wrong character stands.
-/

namespace Backtrack

open Text

/-- A character other than U+FFFD is read exactly where its bytes are. -/
theorem Utf8.decode?_eq_some_iff {t : Bytes} {c : Char} {n : Nat} (hc : c ≠ replacement) :
    decode? t = some (c, n) ↔ n = (encode c).length ∧ encode c <+: t := by
  constructor
  · intro h
    rcases t with _ | ⟨b, rest⟩
    · cases h
    cases hstrict : strict? (b :: rest) with
    | none =>
      rw [decode?_of_stray hstrict] at h
      cases h
      exact absurd rfl hc
    | some r =>
      rw [decode?_of_strict? hstrict] at h
      cases h
      have htake := take_of_strict? hstrict
      have hwidth := (strict?_width hstrict).2
      refine ⟨?_, htake ▸ List.take_prefix _ _⟩
      rw [← htake, List.length_take, Nat.min_eq_left hwidth]
  · rintro ⟨rfl, rest, rfl⟩
    exact decode?_of_strict? (strict?_encode c rest)

/-- The bytes of a text stand at an offset of an input. -/
def Input.StandsAt (input : Input) (offset : Int) (t : Bytes) : Prop :=
  ∃ before after, input.text.toList = before ++ t ++ after ∧ (before.length : Int) = offset

namespace Reader

variable {ι : Type} {τ : ι → Type} {rd : Reader τ} {s u t : Bytes} {texts : List Bytes}

theorem reads_char_iff {c d : Char} (hc : c ≠ Utf8.replacement) :
    rd.Reads (.char c) s d u ↔ s <:+ rd.bytes ∧ s = Utf8.encode c ++ u ∧ d = c := by
  rw [Term.char, reads_satisfy_iff]
  constructor
  · rintro ⟨hs, hd, n, hread, rfl⟩
    obtain rfl := of_decide_eq_true hd
    obtain ⟨rfl, rest, rfl⟩ := (Utf8.decode?_eq_some_iff hc).mp hread
    exact ⟨hs, by rw [List.drop_left], rfl⟩
  · rintro ⟨hs, rfl, rfl⟩
    have hread := (Utf8.decode?_eq_some_iff hc).mpr ⟨rfl, List.prefix_append _ u⟩
    exact ⟨hs, decide_eq_true rfl, _, hread, by rw [List.drop_left]⟩

/-- Terms for some characters read together the bytes of these characters. -/
theorem reads_chars {cs ds : List Char} (h : Utf8.replacement ∉ cs) :
    rd.Reads (.sequenceOf (cs.map .char)) s ds u ↔
      s <:+ rd.bytes ∧ s = Utf8.ofChars cs ++ u ∧ ds = cs := by
  induction cs generalizing s ds with
  | nil =>
    rw [List.map_nil, reads_sequenceOf_nil]
    exact and_congr_right' (and_congr_left' eq_comm)
  | cons c cs ih =>
    obtain ⟨hc, hcs⟩ := List.ne_and_not_mem_of_not_mem_cons h
    have hcons : Utf8.ofChars (c :: cs) = Utf8.encode c ++ Utf8.ofChars cs := rfl
    rw [List.map_cons, reads_sequenceOf_cons, hcons, List.append_assoc]
    constructor
    · rintro ⟨d, m, rest, hd, hrest, rfl⟩
      obtain ⟨hs, hm, rfl⟩ := (reads_char_iff hc.symm).mp hd
      obtain ⟨_, rfl, rfl⟩ := (ih hcs).mp hrest
      exact ⟨hs, hm, rfl⟩
    · rintro ⟨hs, rfl, rfl⟩
      have hd := (reads_char_iff hc.symm).mpr ⟨hs, rfl, rfl⟩
      exact ⟨c, _, cs, hd, (ih hcs).mpr ⟨hd.finish, rfl, rfl⟩, rfl⟩

/-- A literal is read where its characters are. -/
theorem reads_literal_iff_chars (hvalid : Utf8.isValid t = true)
    (ht : Utf8.replacement ∉ Utf8.chars t) :
    (∃ v, rd.Reads (.literal t) s v u) ↔
      ∃ cs, rd.Reads (.sequenceOf ((Utf8.chars t).map .char)) s cs u := by
  simp only [reads_literal, reads_chars ht, Utf8.ofChars_chars hvalid]
  constructor
  · rintro ⟨_, hs, heq, _⟩
    exact ⟨_, hs, heq, rfl⟩
  · rintro ⟨_, hs, heq, _⟩
    exact ⟨_, hs, heq, rfl⟩

theorem run_literal_eq (hs : s <:+ rd.bytes) : rd.run (.literal t) s =
    if t <+: s then .success t (rd.offsetOf s + t.length) else .miss (rd.offsetOf s) := by
  rw [run_literal hs]
  simp only [List.prefix_iff_eq_take, eq_comm]

theorem run_literals_cons (hs : s <:+ rd.bytes) : rd.run (.literals (t :: texts)) s =
    if t <+: s then .success t (rd.offsetOf s + t.length) else rd.run (.literals texts) s := by
  have hrest : rd.answer s (.literals texts) = ((texts.map Term.literal).map (rd.answer s)).prod :=
    answer_choice
  have hfirst : rd.answer s (.literals (t :: texts)) =
      rd.answer s (.literal t) * rd.answer s (.literals texts) := by
    rw [hrest]
    exact answer_choice
  have hrun : rd.run (.literals (t :: texts)) s =
      (rd.run (.literal t) s).orElse (rd.run (.literals texts) s) := congrArg Subtype.val hfirst
  rw [hrun, run_literal_eq hs]
  split
  · rfl
  · exact Answer.miss_orElse (rd.answer s (.literals texts)).property

/-- Of some literals the first counts whose bytes are there. -/
theorem run_literals (hs : s <:+ rd.bytes) (texts : List Bytes) :
    rd.run (.literals texts) s =
      match texts.find? fun t => t <+: s with
      | some t => .success t (rd.offsetOf s + t.length)
      | none => .miss (rd.offsetOf s) := by
  induction texts with
  | nil => rfl
  | cons t texts ih =>
    rw [run_literals_cons hs, List.find?_cons]
    by_cases ht : t <+: s
    · rw [if_pos ht, decide_eq_true ht]
    · rw [if_neg ht, decide_eq_false ht, ih]

theorem run_literals_eq_success (hs : s <:+ rd.bytes) {next : Int} :
    rd.run (.literals texts) s = .success t next ↔
      (∃ before after, texts = before ++ t :: after ∧ t <+: s ∧ ∀ u ∈ before, ¬ u <+: s) ∧
        next = rd.offsetOf s + t.length := by
  have hfirst : (texts.find? fun t => t <+: s) = some t ↔
      ∃ before after, texts = before ++ t :: after ∧ t <+: s ∧ ∀ u ∈ before, ¬ u <+: s := by
    rw [List.find?_eq_some_iff_append]
    simp only [decide_eq_true_eq, Bool.not_eq_true', decide_eq_false_iff_not]
    constructor
    · rintro ⟨ht, before, after, heq, hbefore⟩
      exact ⟨before, after, heq, ht, hbefore⟩
    · rintro ⟨before, after, heq, ht, hbefore⟩
      exact ⟨ht, before, after, heq, hbefore⟩
  rw [← hfirst, run_literals hs]
  cases texts.find? fun t => t <+: s with
  | none => simp
  | some t' =>
    simp only [Outcome.success.injEq, Option.some.injEq]
    constructor
    · rintro ⟨rfl, rfl⟩
      exact ⟨rfl, rfl⟩
    · rintro ⟨rfl, rfl⟩
      exact ⟨rfl, rfl⟩

theorem run_literals_eq_miss (hs : s <:+ rd.bytes) (h : ∀ t ∈ texts, ¬ t <+: s) :
    rd.run (.literals texts) s = .miss (rd.offsetOf s) := by
  have hnone : (texts.find? fun t => t <+: s) = none :=
    List.find?_eq_none.mpr fun t ht => by simpa using h t ht
  rw [run_literals hs, hnone]

end Reader

namespace Definitions

variable {ι : Type} {τ : ι → Type} {defs : Definitions τ} {input : Input} {offset : Int}

/-- At an offset inside a text, bytes stand where what is left of the text begins with them. -/
theorem exists_rest (defs : Definitions τ) (hstart : 0 ≤ offset) (hend : offset ≤ input.size) :
    ∃ s, (∀ t, input.StandsAt offset t ↔ t <+: s) ∧
      ∀ depth, s <:+ (defs.reader depth input).bytes ∧
        (defs.reader depth input).offsetOf s = offset ∧ ∀ {α : Type} (p : Term τ α),
          (defs.reader depth input).run p s = (defs.parserAt depth p input offset).outcome := by
  obtain ⟨s, hs, hoffset, hrun⟩ := exists_run_eq defs hstart hend
  refine ⟨s, fun t => ?_, fun depth => ⟨hs, hoffset, fun p => hrun depth p⟩⟩
  obtain ⟨front, hfront⟩ := hs
  have hlength : (front.length : Int) = offset := by
    have hplace : (defs.reader 0 input).offsetOf s = ((input.text.size - s.length : Nat) : Int) :=
      rfl
    have htotal : front.length + s.length = input.text.size := by
      rw [← List.length_append, hfront, Array.length_toList]
    omega
  constructor
  · rintro ⟨before, after, htext, hbefore⟩
    rw [← hfront, List.append_assoc] at htext
    obtain ⟨_, hrest⟩ := List.append_inj htext (by omega)
    exact ⟨after, hrest.symm⟩
  · rintro ⟨after, rfl⟩
    exact ⟨front, after, by rw [List.append_assoc, hfront], hlength⟩

/-- A well-formed literal without U+FFFD matches exactly where its characters do one after another,
which is where its bytes stand, and both go on behind these. Of some literals the first counts whose
bytes are there, and if none is, the choice misses where it starts. -/
theorem literal_agrees_with_chars (defs : Definitions τ) (hstart : 0 ≤ offset)
    (hend : offset ≤ input.size) :
    (∀ t : Bytes, Utf8.isValid t = true → Utf8.replacement ∉ Utf8.chars t → ∀ next,
      ((∃ v, defs.ComesTo (.literal t) input offset (.success v next)) ↔
        ∃ cs, defs.ComesTo (.sequenceOf ((Utf8.chars t).map .char)) input offset
          (.success cs next)) ∧
      ((∃ v, defs.ComesTo (.literal t) input offset (.success v next)) ↔
        input.StandsAt offset t ∧ next = offset + t.length)) ∧
    ∀ texts : List Bytes,
      (∀ t next, defs.ComesTo (.literals texts) input offset (.success t next) ↔
        (∃ before after, texts = before ++ t :: after ∧ input.StandsAt offset t ∧
          ∀ u ∈ before, ¬ input.StandsAt offset u) ∧ next = offset + t.length) ∧
      ((∀ t ∈ texts, ¬ input.StandsAt offset t) →
        defs.ComesTo (.literals texts) input offset (.miss offset)) := by
  obtain ⟨s, hstands, hrun⟩ := exists_rest defs hstart hend
  have hsuccess {α : Type} (p : Term τ α) (v : α) (next : Int) :
      defs.ComesTo p input offset (.success v next) ↔
        ∃ depth, (defs.reader depth input).run p s = .success v next := by
    rw [comesTo_iff]
    simp only [(hrun _).2.2, ne_eq, reduceCtorEq, not_false_eq_true, true_and]
  refine ⟨fun t hvalid ht next => ⟨?_, ?_⟩, fun texts => ⟨fun t next => ?_, fun hnone => ?_⟩⟩
  · simp only [hsuccess]
    constructor
    · rintro ⟨v, depth, hv⟩
      obtain ⟨u, hread, rfl⟩ := Reader.reads_of_success (hrun depth).1 hv
      obtain ⟨cs, hcs⟩ := (Reader.reads_literal_iff_chars hvalid ht).mp ⟨v, hread⟩
      exact ⟨cs, depth, hcs.matched⟩
    · rintro ⟨cs, depth, hcs⟩
      obtain ⟨u, hread, rfl⟩ := Reader.reads_of_success (hrun depth).1 hcs
      obtain ⟨v, hv⟩ := (Reader.reads_literal_iff_chars hvalid ht).mpr ⟨cs, hread⟩
      exact ⟨v, depth, hv.matched⟩
  · simp only [hsuccess, hstands, Reader.run_literal_eq (hrun _).1, (hrun _).2.1]
    constructor
    · rintro ⟨v, _, hv⟩
      split at hv
      · rename_i ht
        cases hv
        exact ⟨ht, rfl⟩
      · cases hv
    · rintro ⟨ht, rfl⟩
      exact ⟨t, 0, if_pos ht⟩
  · simp only [hsuccess, hstands, Reader.run_literals_eq_success (hrun _).1, (hrun _).2.1,
      exists_const]
  · refine comesTo_iff.mpr ⟨nofun, 0, ?_⟩
    simp only [hstands] at hnone
    rw [← (hrun 0).2.2, Reader.run_literals_eq_miss (hrun 0).1 hnone, (hrun 0).2.1]

/-- Two characters between the beginning of another one and stray bytes. -/
def amongStrayBytes : Input := .ofBytes [] ([240, 159] ++ ("é€" : Bytes) ++ [191, 128])

theorem literal_agrees_with_chars_amongStrayBytes :
    Utf8.isValid "é€" = true ∧ Utf8.replacement ∉ Utf8.chars "é€" ∧
      (∃ cs, digitLists.ComesTo (.sequenceOf ((Utf8.chars "é€").map .char)) amongStrayBytes 2
        (.success cs 7)) ∧
      digitLists.ComesTo (.literals ["é€x", "é", "é€"]) amongStrayBytes 2 (.success "é" 4) := by
  have hvalid : Utf8.isValid "é€" = true := by decide +kernel
  have hchars : Utf8.replacement ∉ Utf8.chars "é€" := by decide +kernel
  have hboth : amongStrayBytes.StandsAt 2 "é€" := ⟨[240, 159], [191, 128], rfl, rfl⟩
  have hfirst : amongStrayBytes.StandsAt 2 "é" := ⟨[240, 159], [226, 130, 172, 191, 128], rfl, rfl⟩
  have hnot : ¬ amongStrayBytes.StandsAt 2 "é€x" := by
    rintro ⟨before, after, htext, _⟩
    have hx : (120 : UInt8) ∈ amongStrayBytes.text.toList := by
      rw [htext]
      exact List.mem_append_left _ (List.mem_append_right _ (by decide +kernel))
    exact absurd hx (by decide +kernel)
  have hend : 2 ≤ (amongStrayBytes.size : Int) := by decide +kernel
  obtain ⟨hsequence, hliterals⟩ := literal_agrees_with_chars digitLists (by decide) hend
  obtain ⟨hagree, hstands⟩ := hsequence "é€" hvalid hchars 7
  refine ⟨hvalid, hchars, hagree.mp (hstands.mpr ⟨hboth, rfl⟩), ?_⟩
  refine ((hliterals _).1 _ _).mpr ⟨⟨["é€x"], ["é€"], rfl, hfirst, fun t ht => ?_⟩, rfl⟩
  exact List.mem_singleton.mp ht ▸ hnot

end Definitions

end Backtrack
