import Backtrack.Proofs.Parser.Tokens
import Backtrack.Proofs.Xml.Language

/-!
# Reading text and comments

Three terms of the grammar take comments: the one for what is ignored and the two around each
character of a text. What any of them leaves behind is the same for the language, so one relation
stands for all three: `Crossing` goes over characters and comments in the order of the text.
-/

namespace Backtrack.Xml

open Text

variable {rd : Reader Rule.type} {s t u m : Bytes} {c : Char} {cs ds : List Char} {n : Nat}

def opening : Bytes := "<!--"

def ending : Bytes := "-->"

/-- What is left of a text behind some characters that open no tag, and behind comments. -/
inductive Crossing : Bytes → List Char → Bytes → Prop where
  | stop (s : Bytes) : Crossing s [] s
  | char {s u : Bytes} {c : Char} {n : Nat} {cs : List Char} (hs : Utf8.decode? s = some (c, n))
      (hc : c ≠ '<') (h : Crossing (s.drop n) cs u) : Crossing s (c :: cs) u
  | comment {t s u : Bytes} {cs : List Char} (ht : Comment t) (h : Crossing s cs u) :
      Crossing (t ++ s) cs u

theorem Crossing.trans (h : Crossing s cs m) (h' : Crossing m ds u) : Crossing s (cs ++ ds) u := by
  induction h with
  | stop => exact h'
  | char hs hc _ ih => exact .char hs hc (ih h')
  | comment ht _ ih => exact .comment ht (ih h')

theorem Crossing.suffix (h : Crossing s cs u) : u <:+ s := by
  induction h with
  | stop => exact List.suffix_rfl
  | char _ _ _ ih => exact ih.trans (List.drop_suffix _ _)
  | comment _ _ ih => exact ih.trans (List.suffix_append _ _)

theorem Comment.head (h : Comment t) : opening <+: t := by
  obtain ⟨_⟩ := h
  rw [List.append_assoc]
  exact List.prefix_append _ _

theorem Comment.ne_nil (h : Comment t) : t ≠ [] := by
  rintro rfl
  exact absurd h.head.length_le (by decide)

/-- The end of the text, or a place where a tag might begin. -/
structure AtTag (u : Bytes) : Prop where
  head : HeadNot (fun b => b ≠ Bytes.ascii '<') u
  notComment : ¬ opening <+: u

theorem AtTag.headNot (h : AtTag u) {kind : UInt8 → Bool} (hkind : kind (Bytes.ascii '<') = false) :
    HeadNot kind u := by
  intro b hb
  have heq : b = Bytes.ascii '<' := by simpa using h.head b hb
  rw [heq]
  exact hkind

theorem head_of_char (h : Utf8.decode? s = some (c, n)) :
    c = '<' ↔ ∃ r, s = Bytes.ascii '<' :: r := by
  constructor
  · rintro rfl
    rcases Utf8.decode?_cases h with ⟨b, r, rfl, hb, hc, _⟩ | ⟨hwide, _⟩
    · have hnat : ('<' : Char).toNat = b.toNat := by
        rw [hc, Char.ofNat, dif_pos (.inl (by omega))]
        rfl
      obtain rfl : b = Bytes.ascii '<' := UInt8.toNat_inj.mp hnat.symm
      exact ⟨r, rfl⟩
    · exact absurd hwide (by decide)
  · rintro ⟨r, rfl⟩
    rw [Utf8.decode?_ascii (by decide)] at h
    cases h
    rfl

theorem not_mem_char (h : Utf8.decode? s = some (c, n)) (hc : c ≠ '<') :
    Bytes.ascii '<' ∉ s.take n := by
  intro hmem
  rcases Utf8.decode?_cases h with ⟨b, r, rfl, _, _, rfl⟩ | ⟨_, hwide⟩
  · rw [List.take_succ_cons, List.take_zero, List.mem_singleton] at hmem
    exact hc ((head_of_char h).mpr ⟨r, by rw [hmem]⟩)
  · exact absurd (hwide _ hmem) (by decide)

theorem AtTag.not_char (h : AtTag u) (hu : Utf8.decode? u = some (c, n)) : c = '<' := by
  apply (head_of_char hu).mpr
  rcases u with _ | ⟨b, r⟩
  · cases hu
  · have hb := headNot_cons.mp h.head
    exact ⟨r, by simpa using hb⟩

theorem atTag_of_not_char (h : ∀ c n, Utf8.decode? u = some (c, n) → c = '<')
    (hopening : ¬ opening <+: u) : AtTag u := by
  refine ⟨?_, hopening⟩
  intro b hb
  obtain ⟨c, n, hread⟩ := Utf8.exists_decode? (t := u) (by rintro rfl; cases hb)
  obtain ⟨r, rfl⟩ := (head_of_char hread).mp (h c n hread)
  cases hb
  rfl

theorem characterData_nil : CharacterData [] [] := @CharacterData.last [] List.not_mem_nil

theorem crossing_run {run v : Bytes} (hrun : Bytes.ascii '<' ∉ run) (hv : HeadNot Utf8.isWide v)
    (h : Crossing v cs u) : Crossing (run ++ v) (Utf8.chars run ++ cs) u := by
  induction hn : run.length using Nat.strongRecOn generalizing run with
  | _ l ih =>
    by_cases hne : run = []
    · subst hne
      exact h
    · obtain ⟨c, n, hread⟩ := Utf8.exists_decode? hne
      have hwidth := Utf8.decode?_width hread
      have hc : c ≠ '<' := by
        intro heq
        obtain ⟨r, rfl⟩ := (head_of_char hread).mp heq
        exact hrun List.mem_cons_self
      rw [Utf8.chars_of_decode? hread, List.cons_append]
      apply Crossing.char ((Utf8.decode?_append hne hv).trans hread) hc
      rw [List.drop_append_of_le_length hwidth.2]
      apply ih _ _ (fun hmem => hrun (List.mem_of_mem_drop hmem)) rfl
      rw [List.length_drop]
      omega

theorem crossing_of_characterData (h : CharacterData cs t) (hu : HeadNot Utf8.isWide u) :
    Crossing (t ++ u) cs u := by
  induction h with
  | last hrun =>
    have hcrossing := crossing_run hrun hu (.stop u)
    rwa [List.append_nil] at hcrossing
  | @more run comment t cs hrun hcomment _ ih =>
    rw [List.append_assoc, List.append_assoc]
    apply crossing_run hrun ?_ (.comment hcomment ih)
    obtain ⟨rest, rfl⟩ := hcomment.head
    exact headNot_cons.mpr (by decide)

/-- A character in front of character data, if it does not merge with the first one there. -/
theorem characterData_cons (hx : Utf8.decode? (m ++ (t ++ u)) = some (c, m.length))
    (hm : Bytes.ascii '<' ∉ m) (hu : HeadNot Utf8.isWide u) (h : CharacterData cs t) :
    CharacterData (c :: cs) (m ++ t) := by
  have hne : ∀ v, m ++ v ≠ [] := by
    intro v hnil
    have hpos := (Utf8.decode?_width hx).1
    rw [(List.append_eq_nil_iff.mp hnil).1] at hpos
    exact absurd hpos (by decide)
  have hchars : ∀ run v, t ++ u = run ++ v → HeadNot Utf8.isWide v →
      Utf8.chars (m ++ run) = c :: Utf8.chars run := by
    intro run v heq hv
    rw [heq, ← List.append_assoc, Utf8.decode?_append (hne run) hv] at hx
    rw [Utf8.chars_of_decode? hx, List.drop_left]
  have hfree : ∀ {run : Bytes}, Bytes.ascii '<' ∉ run → Bytes.ascii '<' ∉ m ++ run := by
    intro run hrun hmem
    rcases List.mem_append.mp hmem with hmem | hmem
    · exact hm hmem
    · exact hrun hmem
  cases h with
  | last hrun =>
    rw [← hchars t u rfl hu]
    exact .last (hfree hrun)
  | @more run comment t' cs hrun hcomment ht' =>
    have hv : HeadNot Utf8.isWide (comment ++ (t' ++ u)) := by
      obtain ⟨rest, rfl⟩ := hcomment.head
      exact headNot_cons.mpr (by decide)
    have h := CharacterData.more (hfree hrun) hcomment ht'
    rw [hchars run _ (by simp) hv] at h
    rw [List.append_assoc, ← List.append_assoc, ← List.append_assoc]
    exact h

theorem characterData_of_crossing (h : Crossing s cs u) (hu : HeadNot Utf8.isWide u) :
    ∃ t, s = t ++ u ∧ CharacterData cs t := by
  induction h with
  | stop s => exact ⟨[], rfl, characterData_nil⟩
  | @char s u c n cs hs hc _ ih =>
    obtain ⟨t, heq, ht⟩ := ih hu
    have hwidth := Utf8.decode?_width hs
    have hlength : (s.take n).length = n := by
      rw [List.length_take]
      omega
    have hsplit : s = s.take n ++ (t ++ u) := by
      conv => lhs; rw [← List.take_append_drop n s, heq]
    refine ⟨s.take n ++ t, by rw [List.append_assoc]; exact hsplit, ?_⟩
    apply characterData_cons (u := u) ?_ (not_mem_char hs hc) hu ht
    rw [← hsplit, hlength]
    exact hs
  | @comment t s u cs ht _ ih =>
    obtain ⟨t', rfl, ht'⟩ := ih hu
    refine ⟨t ++ t', (List.append_assoc _ _ _).symm, ?_⟩
    exact @CharacterData.more [] t t' cs List.not_mem_nil ht ht'

theorem crossing_of_ignored (h : Ignored t) (u : Bytes) :
    ∃ cs, cs.all Term.isSpace = true ∧ Crossing (t ++ u) cs u := by
  induction h with
  | nil => exact ⟨[], rfl, .stop u⟩
  | @space b t hb _ ih =>
    obtain ⟨cs, hcs, hcrossing⟩ := ih
    have haccepts : Reader.accepts Term.isSpace b = true := by rw [Reader.accepts_isSpace, hb]
    simp only [Reader.accepts, Bool.and_eq_true, decide_eq_true_eq] at haccepts
    refine ⟨Char.ofNat b.toNat :: cs, ?_, .char (Utf8.decode?_ascii haccepts.1 _) ?_ hcrossing⟩
    · rw [List.all_cons, haccepts.2, hcs]
      rfl
    · intro heq
      rw [heq] at haccepts
      exact absurd haccepts.2 (by decide)
  | @comment t t' ht _ ih =>
    obtain ⟨cs, hcs, hcrossing⟩ := ih
    rw [List.append_assoc]
    exact ⟨cs, hcs, .comment ht hcrossing⟩

theorem space_of_char (h : Utf8.decode? s = some (c, n)) (hc : Term.isSpace c = true) :
    ∃ b r, s = b :: r ∧ isSpaceByte b = true ∧ c = Char.ofNat b.toNat ∧ n = 1 := by
  rcases Utf8.decode?_cases h with ⟨b, r, rfl, hb, rfl, rfl⟩ | ⟨hwide, _⟩
  · refine ⟨b, r, rfl, ?_, rfl, rfl⟩
    rw [← Reader.accepts_isSpace, Reader.accepts, hc, decide_eq_true hb]
    rfl
  · have hlt := Reader.isSpace_ascii c hc
    omega

theorem headNot_of_char (h : Utf8.decode? s = some (c, n)) (hc : Term.isSpace c = false) :
    HeadNot isSpaceByte s := by
  intro b hb
  obtain ⟨r, rfl⟩ : ∃ r, s = b :: r := ⟨s.tail, List.eq_cons_of_mem_head? hb⟩
  rw [← Reader.accepts_isSpace, Reader.accepts]
  rcases Nat.lt_or_ge b.toNat 128 with hascii | hwide
  · rw [Utf8.decode?_ascii hascii] at h
    cases h
    rw [hc, Bool.and_false]
  · rw [decide_eq_false (Nat.not_lt.mpr hwide), Bool.false_and]

theorem ignored_of_crossing (h : Crossing s cs u) (hcs : cs.all Term.isSpace = true) :
    ∃ t, s = t ++ u ∧ Ignored t := by
  induction h with
  | stop => exact ⟨[], rfl, .nil⟩
  | char hs _ _ ih =>
    rw [List.all_cons, Bool.and_eq_true] at hcs
    obtain ⟨b, r, rfl, hb, _, rfl⟩ := space_of_char hs hcs.1
    obtain ⟨t, heq, ht⟩ := ih hcs.2
    rw [List.drop_one, List.tail_cons] at heq
    subst heq
    exact ⟨b :: t, rfl, .space hb ht⟩
  | comment ht _ ih =>
    obtain ⟨t', rfl, ht'⟩ := ih hcs
    exact ⟨_ ++ t', (List.append_assoc _ _ _).symm, .comment ht ht'⟩

section Comments

def commentChar : Grammar Char := (Term.literal ending).not.skipLeft Term.anyChar

theorem comment_eq : comment = commentChar.many0.surround (.literal opening)
    ((Term.literal ending).expected "unterminated comment") := rfl

theorem reads_commentChar : rd.Reads commentChar s c u ↔
    s <:+ rd.bytes ∧ ¬ ending <+: s ∧ ∃ n, Utf8.decode? s = some (c, n) ∧ u = s.drop n := by
  rw [commentChar, Reader.reads_skipLeft]
  constructor
  · rintro ⟨_, m, hnot, hchar⟩
    obtain ⟨hending, rfl⟩ := Reader.reads_not.mp hnot
    obtain ⟨hs, _, hread⟩ := Reader.reads_satisfy_iff.mp hchar
    exact ⟨hs, (Reader.rejects_literal_iff.mp hending).2, hread⟩
  · rintro ⟨hs, hending, hread⟩
    have hnot := Reader.rejects_literal hs hending
    exact ⟨(), s, Reader.reads_not.mpr ⟨hnot, rfl⟩, Reader.reads_satisfy_iff.mpr ⟨hs, rfl, hread⟩⟩

theorem not_ending_wide {x : Bytes} (hx : ∀ b ∈ x, 128 ≤ b.toNat) (h : ¬ ending <:+: t) :
    ¬ ending <:+: x ++ t := by
  induction x with
  | nil => exact h
  | cons b x ih =>
    rw [List.cons_append, List.infix_cons_iff]
    rintro (⟨_, heq⟩ | hwithin)
    · have hb := hx b List.mem_cons_self
      rw [← (List.cons.inj heq).1] at hb
      exact absurd hb (by decide)
    · exact ih (fun d hd => hx d (List.mem_cons_of_mem b hd)) hwithin

/-- The characters of a comment are read up to where it ends first. -/
theorem inside_of_chain (h : rd.Chain commentChar s cs u) :
    ∃ inside, s = inside ++ u ∧ ¬ ending <:+: inside := by
  induction h with
  | stop => exact ⟨[], rfl, by decide⟩
  | @next s m u c cs h _ _ ih =>
    obtain ⟨_, hending, n, hread, rfl⟩ := reads_commentChar.mp h
    obtain ⟨inside, heq, hinside⟩ := ih
    have hsplit : s = s.take n ++ inside ++ u := by
      rw [List.append_assoc, ← heq, List.take_append_drop]
    refine ⟨s.take n ++ inside, hsplit, ?_⟩
    rcases Utf8.decode?_cases hread with ⟨b, r, rfl, _, _, rfl⟩ | ⟨_, hwide⟩
    · rw [List.take_succ_cons, List.take_zero, List.singleton_append] at hsplit ⊢
      rw [List.infix_cons_iff]
      rintro (hstarts | hwithin)
      · apply hending
        rw [hsplit]
        exact hstarts.trans (List.prefix_append _ _)
      · exact hinside hwithin
    · exact not_ending_wide hwide hinside

theorem ending_eq : ending = [45, 45, 62] := by decide

/-- What is inside a comment and the end of it do not make an earlier end together. -/
theorem not_ending_append (hne : t ≠ []) (h : ¬ ending <:+: t) :
    ¬ ending <+: t ++ (ending ++ u) := by
  intro hstarts
  rcases Nat.lt_or_ge t.length ending.length with hlt | hge
  · rw [ending_eq] at hstarts hlt
    rcases t with _ | ⟨a, _ | ⟨b, _ | ⟨c, t⟩⟩⟩
    · exact hne rfl
    · simp at hstarts
    · simp at hstarts
    · simp only [List.length_cons, List.length_nil] at hlt
      omega
  · exact h (List.prefix_of_prefix_length_le hstarts (List.prefix_append _ _) hge).isInfix

theorem chain_inside {inside : Bytes} (hs : inside ++ (ending ++ u) <:+ rd.bytes)
    (h : ¬ ending <:+: inside) :
    ∃ cs, rd.Chain commentChar (inside ++ (ending ++ u)) cs (ending ++ u) := by
  induction hn : inside.length using Nat.strongRecOn generalizing inside with
  | _ l ih =>
    by_cases hne : inside = []
    · subst hne
      have hend : rd.Reads (.literal ending) (ending ++ u) ending u :=
        Reader.reads_literal.mpr ⟨hs, rfl, rfl⟩
      exact ⟨[], .stop (.inl (Reader.rejects_skipLeft (Reader.rejects_not hend)))⟩
    · obtain ⟨c, n, hread⟩ := Utf8.exists_decode? hne
      have hwidth := Utf8.decode?_width hread
      have hnarrow : HeadNot Utf8.isWide (ending ++ u) := headNot_cons.mpr (by decide)
      have hchar := reads_commentChar.mpr ⟨hs, not_ending_append hne h, n,
        (Utf8.decode?_append hne hnarrow).trans hread, rfl⟩
      rw [List.drop_append_of_le_length hwidth.2] at hchar
      have hinside : ¬ ending <:+: inside.drop n :=
        fun hwithin => h (hwithin.trans (List.drop_suffix n inside).isInfix)
      have hlength : (inside.drop n).length < l := by
        rw [List.length_drop]
        omega
      obtain ⟨cs, hchain⟩ := ih _ hlength hchar.finish hinside rfl
      refine ⟨c :: cs, .next hchar ?_ hchain⟩
      intro heq
      have hlength' := congrArg List.length heq
      simp only [List.length_append, List.length_drop] at hlength'
      omega

theorem sound_comment : rd.Sound comment fun _ t => Comment t := by
  intro s cs u h
  rw [comment_eq] at h
  obtain ⟨_, m, hm, hend⟩ := Reader.reads_skipRight.mp h
  obtain ⟨_, w, hopening, hmany⟩ := Reader.reads_skipLeft.mp hm
  obtain ⟨_, rfl, _⟩ := Reader.reads_literal.mp hopening
  obtain ⟨inside, rfl, hinside⟩ := inside_of_chain (Reader.reads_many0.mp hmany).2
  obtain ⟨_, rfl, _⟩ := Reader.reads_literal.mp (Reader.reads_commit.mp hend)
  exact ⟨opening ++ inside ++ ending, by simp, .mk hinside⟩

theorem reads_comment (h : Comment t) (hs : t ++ u <:+ rd.bytes) :
    ∃ cs, rd.Reads comment (t ++ u) cs u := by
  obtain ⟨hinside⟩ := h
  rename_i inside
  have hassoc : "<!--" ++ inside ++ "-->" ++ u = opening ++ (inside ++ (ending ++ u)) := by
    simp [opening, ending]
  rw [hassoc] at hs ⊢
  have hopening := Reader.reads_literal.mpr ⟨hs, rfl, rfl⟩
  obtain ⟨cs, hchain⟩ := chain_inside hopening.finish hinside
  have hmany := Reader.reads_many0.mpr ⟨hopening.finish, hchain⟩
  have hend := Reader.reads_literal.mpr ⟨hmany.finish, rfl, rfl⟩
  have hm := Reader.reads_skipLeft.mpr ⟨_, _, hopening, hmany⟩
  exact ⟨cs, Reader.reads_skipRight.mpr ⟨_, _, hm, Reader.reads_commit.mpr hend⟩⟩

/-- Once a comment is open it is read or the run ends. -/
theorem rejects_comment : rd.Rejects comment s ↔ s <:+ rd.bytes ∧ ¬ opening <+: s := by
  constructor
  · intro h
    rw [comment_eq] at h
    rcases Reader.rejects_skipRight_iff.mp h with h | ⟨_, _, _, h⟩
    · rcases Reader.rejects_skipLeft_iff.mp h with h | ⟨_, _, _, h⟩
      · exact Reader.rejects_literal_iff.mp h
      · exact absurd h Reader.not_rejects_many0
    · exact absurd h Reader.not_rejects_commit
  · intro h
    exact Reader.rejects_skipRight (Reader.rejects_skipLeft (Reader.rejects_literal_iff.mpr h))

theorem not_reads_comment_self : ¬ rd.Reads comment s cs s := by
  intro h
  obtain ⟨t, heq, ht⟩ := sound_comment h
  exact ht.ne_nil (List.self_eq_append_left.mp heq)

theorem reads_comments :
    (∃ css, rd.Reads comments s css u) ↔ s <:+ rd.bytes ∧ Crossing s [] u ∧ ¬ opening <+: u := by
  constructor
  · rintro ⟨css, h⟩
    obtain ⟨hs, hchain⟩ := Reader.reads_many0.mp h
    have hstop := hchain.rejects fun _ _ => not_reads_comment_self
    refine ⟨hs, ?_, (rejects_comment.mp hstop).2⟩
    clear h hs hstop
    induction hchain with
    | stop => exact .stop _
    | next h _ _ ih =>
      obtain ⟨t, rfl, ht⟩ := sound_comment h
      exact .comment ht ih
  · rintro ⟨hs, hcrossing, hstop⟩
    suffices hchain : ∃ css, rd.Chain comment s css u by
      obtain ⟨css, h⟩ := hchain
      exact ⟨css, Reader.reads_many0.mpr ⟨hs, h⟩⟩
    generalize hcs : ([] : List Char) = cs at hcrossing
    induction hcrossing with
    | stop => exact ⟨[], .stop (.inl (rejects_comment.mpr ⟨hs, hstop⟩))⟩
    | char => cases hcs
    | comment ht _ ih =>
      obtain ⟨cs, hread⟩ := reads_comment ht hs
      obtain ⟨css, hchain⟩ := ih ((List.suffix_append _ _).trans hs) hstop hcs
      refine ⟨cs :: css, .next hread ?_ hchain⟩
      intro heq
      exact ht.ne_nil (List.self_eq_append_left.mp heq)

end Comments

section Ignored

def ignorable : Grammar Unit := (Term.space.value ()).or (comment.value ())

theorem ignored_eq : ignored = ignorable.many0 := rfl

theorem rejects_ignorable : rd.Rejects ignorable s ↔
    s <:+ rd.bytes ∧ HeadNot isSpaceByte s ∧ ¬ opening <+: s := by
  rw [ignorable, Reader.rejects_or_iff, Term.value, Term.value, Reader.rejects_map_iff,
    Reader.rejects_map_iff, rejects_comment]
  constructor
  · rintro ⟨hspace, hs, hcomment⟩
    refine ⟨hs, ?_, hcomment⟩
    intro b hb
    apply Bool.eq_false_iff.mpr
    intro hb'
    obtain ⟨r, rfl⟩ : ∃ r, s = b :: r := ⟨s.tail, List.eq_cons_of_mem_head? hb⟩
    exact hspace.not_reads (Reader.reads_space.mpr ⟨hs, b, rfl, hb', rfl⟩)
  · rintro ⟨hs, hspace, hcomment⟩
    exact ⟨Reader.rejects_space hs hspace, hs, hcomment⟩

theorem not_reads_ignorable_self {w : Unit} : ¬ rd.Reads ignorable s w s := by
  intro h
  rcases Reader.reads_or.mp h with h | ⟨_, h⟩
  · obtain ⟨⟨_, hspace⟩, _⟩ := Reader.reads_value.mp h
    obtain ⟨_, b, heq, _⟩ := Reader.reads_space.mp hspace
    simp at heq
  · obtain ⟨⟨_, hcomment⟩, _⟩ := Reader.reads_value.mp h
    exact not_reads_comment_self hcomment

theorem spaces_of_chain {ws : List Unit} (h : rd.Chain ignorable s ws u) :
    ∃ cs, cs.all Term.isSpace = true ∧ Crossing s cs u := by
  induction h with
  | stop => exact ⟨[], rfl, .stop _⟩
  | next h _ _ ih =>
    obtain ⟨cs, hcs, hcrossing⟩ := ih
    rcases Reader.reads_or.mp h with h | ⟨_, h⟩
    · obtain ⟨⟨c, hspace⟩, _⟩ := Reader.reads_value.mp h
      obtain ⟨_, hc, n, hread, rfl⟩ := Reader.reads_satisfy_iff.mp hspace
      refine ⟨c :: cs, ?_, .char hread ?_ hcrossing⟩
      · rw [List.all_cons, hc, hcs]
        rfl
      · rintro rfl
        exact absurd hc (by decide)
    · obtain ⟨⟨_, hcomment⟩, _⟩ := Reader.reads_value.mp h
      obtain ⟨t, rfl, ht⟩ := sound_comment hcomment
      exact ⟨cs, hcs, .comment ht hcrossing⟩

theorem chain_of_spaces (h : Crossing s cs u) (hcs : cs.all Term.isSpace = true)
    (hs : s <:+ rd.bytes) (hspace : HeadNot isSpaceByte u) (hcomment : ¬ opening <+: u) :
    ∃ ws, rd.Chain ignorable s ws u := by
  induction h with
  | stop => exact ⟨[], .stop (.inl (rejects_ignorable.mpr ⟨hs, hspace, hcomment⟩))⟩
  | char hread _ _ ih =>
    rw [List.all_cons, Bool.and_eq_true] at hcs
    obtain ⟨b, r, rfl, hb, _, rfl⟩ := space_of_char hread hcs.1
    obtain ⟨ws, hchain⟩ := ih hcs.2 ((List.drop_suffix _ _).trans hs) hspace hcomment
    have hread := Reader.reads_space.mpr ⟨hs, b, rfl, hb, rfl⟩
    refine ⟨() :: ws, .next (Reader.reads_or.mpr (.inl ?_)) ?_ hchain⟩
    · exact Reader.reads_value.mpr ⟨⟨_, hread⟩, rfl⟩
    · simp
  | comment ht _ ih =>
    obtain ⟨cs, hread⟩ := reads_comment ht hs
    obtain ⟨ws, hchain⟩ := ih hcs ((List.suffix_append _ _).trans hs) hspace hcomment
    refine ⟨() :: ws, .next (Reader.reads_or.mpr (.inr ⟨?_, ?_⟩)) ?_ hchain⟩
    · apply Reader.rejects_map
      apply Reader.rejects_space hs
      obtain ⟨rest, rfl⟩ := ht.head
      exact headNot_cons.mpr (by decide)
    · exact Reader.reads_value.mpr ⟨⟨_, hread⟩, rfl⟩
    · intro heq
      exact ht.ne_nil (List.self_eq_append_left.mp heq)

theorem reads_ignored :
    (∃ ws, rd.Reads ignored s ws u) ↔ s <:+ rd.bytes ∧
      (∃ cs, cs.all Term.isSpace = true ∧ Crossing s cs u) ∧ HeadNot isSpaceByte u ∧
        ¬ opening <+: u := by
  rw [ignored_eq]
  constructor
  · rintro ⟨ws, h⟩
    obtain ⟨hs, hchain⟩ := Reader.reads_many0.mp h
    have hstop := hchain.rejects fun _ _ => not_reads_ignorable_self
    exact ⟨hs, spaces_of_chain hchain, (rejects_ignorable.mp hstop).2⟩
  · rintro ⟨hs, ⟨cs, hcs, hcrossing⟩, hspace, hcomment⟩
    obtain ⟨ws, hchain⟩ := chain_of_spaces hcrossing hcs hs hspace hcomment
    exact ⟨ws, Reader.reads_many0.mpr ⟨hs, hchain⟩⟩

end Ignored

section Pieces

def piece : Grammar Char := (Term.charNotIn "<").surround comments comments

theorem text_eq : text = piece.many1.map fun cs => .text (Utf8.ofChars (trimBlanks cs)) := rfl

theorem chars_bracket : Utf8.chars (Bytes.ofString "<") = ['<'] := by decide

theorem reads_notOpen : rd.Reads (Term.charNotIn "<") s c u ↔
    s <:+ rd.bytes ∧ c ≠ '<' ∧ ∃ n, Utf8.decode? s = some (c, n) ∧ u = s.drop n := by
  rw [Term.charNotIn, Reader.reads_satisfy_iff, chars_bracket]
  simp

theorem rejects_notOpen : rd.Rejects (Term.charNotIn "<") s ↔
    s <:+ rd.bytes ∧ ∀ c n, Utf8.decode? s = some (c, n) → c = '<' := by
  rw [Term.charNotIn, Reader.rejects_satisfy_iff, chars_bracket]
  simp

theorem Crossing.skip_nil (h : Crossing s [] u) (hs : ¬ opening <+: s) : u = s := by
  cases h with
  | stop => rfl
  | comment ht => exact absurd (ht.head.trans (List.prefix_append _ _)) hs

/-- The comments behind a character go with it. -/
theorem Crossing.split (h : Crossing s cs u) (hu : ¬ opening <+: u) :
    ∃ m, Crossing s [] m ∧ ¬ opening <+: m ∧ Crossing m cs u := by
  induction h with
  | stop s => exact ⟨s, .stop s, hu, .stop s⟩
  | @char s u c n cs hs hc hrest =>
    refine ⟨s, .stop s, ?_, .char hs hc hrest⟩
    rintro ⟨r, rfl⟩
    exact hc ((head_of_char hs).mpr ⟨_, rfl⟩)
  | comment ht _ ih =>
    obtain ⟨m, hcrossing, hm, hrest⟩ := ih hu
    exact ⟨m, .comment ht hcrossing, hm, hrest⟩

theorem reads_piece : rd.Reads piece s c u ↔
    s <:+ rd.bytes ∧ Crossing s [c] u ∧ ¬ opening <+: u := by
  rw [piece, Term.surround, Reader.reads_skipRight]
  constructor
  · rintro ⟨_, m, hm, hbehind⟩
    obtain ⟨_, w, hbefore, hchar⟩ := Reader.reads_skipLeft.mp hm
    obtain ⟨hs, hcrossing, _⟩ := reads_comments.mp ⟨_, hbefore⟩
    obtain ⟨_, hc, n, hread, rfl⟩ := reads_notOpen.mp hchar
    obtain ⟨_, hcrossing', hu⟩ := reads_comments.mp ⟨_, hbehind⟩
    exact ⟨hs, hcrossing.trans (.char hread hc hcrossing'), hu⟩
  · rintro ⟨hs, hcrossing, hu⟩
    obtain ⟨m, hbefore, hm, hchar⟩ := hcrossing.split hu
    cases hchar with
    | @char _ _ _ n _ hread hc hbehind =>
      obtain ⟨_, hbefore⟩ := reads_comments.mpr ⟨hs, hbefore, hm⟩
      have hchar := reads_notOpen.mpr ⟨hbefore.finish, hc, n, hread, rfl⟩
      obtain ⟨_, hbehind⟩ := reads_comments.mpr ⟨hchar.finish, hbehind, hu⟩
      exact ⟨_, _, Reader.reads_skipLeft.mpr ⟨_, _, hbefore, hchar⟩, hbehind⟩
    | comment ht => exact absurd (ht.head.trans (List.prefix_append _ _)) hm

theorem Crossing.length_lt (h : Crossing s cs u) (hcs : cs ≠ []) : u.length < s.length := by
  induction h with
  | stop => exact absurd rfl hcs
  | char hs _ hrest =>
    have hwidth := Utf8.decode?_width hs
    have hle := hrest.suffix.length_le
    rw [List.length_drop] at hle
    omega
  | comment _ _ ih =>
    have hlt := ih hcs
    rw [List.length_append]
    omega

theorem not_reads_piece_self : ¬ rd.Reads piece s c s := by
  intro h
  obtain ⟨_, hcrossing, _⟩ := reads_piece.mp h
  exact absurd (hcrossing.length_lt (List.cons_ne_nil _ _)) (Nat.lt_irrefl _)

theorem rejects_piece (hs : s <:+ rd.bytes) (h : AtTag s) : rd.Rejects piece s := by
  obtain ⟨_, hcomments⟩ := reads_comments.mpr ⟨hs, .stop s, h.notComment⟩
  have hchar := rejects_notOpen.mpr ⟨hs, fun c n hread => h.not_char hread⟩
  apply Reader.rejects_skipRight
  exact Reader.rejects_skipLeft_iff.mpr (.inr ⟨_, s, hcomments, hchar⟩)

theorem atTag_of_rejects (h : rd.Rejects piece s) (hs : ¬ opening <+: s) : AtTag s := by
  rcases Reader.rejects_skipRight_iff.mp h with hbefore | ⟨_, _, _, hbehind⟩
  · rcases Reader.rejects_skipLeft_iff.mp hbefore with hcomments | ⟨_, m, hm, hchar⟩
    · exact absurd hcomments Reader.not_rejects_many0
    · obtain ⟨_, hcrossing, _⟩ := reads_comments.mp ⟨_, hm⟩
      obtain rfl := hcrossing.skip_nil hs
      exact atTag_of_not_char (rejects_notOpen.mp hchar).2 hs
  · exact absurd hbehind Reader.not_rejects_many0

theorem crossing_of_chain (h : rd.Chain piece s cs u) : Crossing s cs u := by
  induction h with
  | stop => exact .stop _
  | next h _ _ ih =>
    obtain ⟨_, hcrossing, _⟩ := reads_piece.mp h
    exact hcrossing.trans ih

theorem atTag_of_chain (h : rd.Chain piece s cs u) (hs : ¬ opening <+: s) : AtTag u := by
  have hstop := h.rejects fun _ _ => not_reads_piece_self
  apply atTag_of_rejects hstop
  clear hstop
  induction h with
  | stop => exact hs
  | next h _ _ ih => exact ih (reads_piece.mp h).2.2

theorem Crossing.head (h : Crossing s (c :: cs) u) (hu : ¬ opening <+: u) :
    ∃ m, Crossing s [c] m ∧ ¬ opening <+: m ∧ Crossing m cs u := by
  obtain ⟨m, hbefore, hm, hchar⟩ := h.split hu
  cases hchar with
  | char hread hc hrest =>
    obtain ⟨w, hbehind, hw, hrest⟩ := hrest.split hu
    exact ⟨w, hbefore.trans (.char hread hc hbehind), hw, hrest⟩
  | comment ht => exact absurd (ht.head.trans (List.prefix_append _ _)) hm

theorem chain_of_crossing (h : Crossing s cs u) (hs : s <:+ rd.bytes) (hopening : ¬ opening <+: s)
    (hu : AtTag u) : rd.Chain piece s cs u := by
  induction cs generalizing s with
  | nil =>
    obtain rfl := h.skip_nil hopening
    exact .stop (.inl (rejects_piece hs hu))
  | cons c cs ih =>
    obtain ⟨m, hc, hm, hrest⟩ := h.head hu.notComment
    have hread := reads_piece.mpr ⟨hs, hc, hm⟩
    apply Reader.Chain.next hread ?_ (ih hrest hread.finish hm)
    rintro rfl
    exact not_reads_piece_self hread

theorem reads_text {v : Node} : rd.Reads text s v u ↔
    s <:+ rd.bytes ∧ ∃ cs, cs ≠ [] ∧ Crossing s cs u ∧ AtTag u ∧
      v = .text (Utf8.ofChars (trimBlanks cs)) := by
  rw [text_eq, Reader.reads_map]
  constructor
  · rintro ⟨_, h, rfl⟩
    obtain ⟨c, cs, m, rfl, hread, hchain⟩ := Reader.reads_many1.mp h
    obtain ⟨hs, hc, hm⟩ := reads_piece.mp hread
    refine ⟨hs, c :: cs, List.cons_ne_nil _ _, ?_, atTag_of_chain hchain hm, rfl⟩
    exact hc.trans (crossing_of_chain hchain)
  · rintro ⟨hs, cs, hne, h, hu, rfl⟩
    obtain ⟨c, cs, rfl⟩ := List.exists_cons_of_ne_nil hne
    obtain ⟨m, hc, hm, hrest⟩ := h.head hu.notComment
    have hread := reads_piece.mpr ⟨hs, hc, hm⟩
    have hchain := chain_of_crossing hrest hread.finish hm hu
    exact ⟨c :: cs, Reader.reads_many1.mpr ⟨c, cs, m, rfl, hread, hchain⟩, rfl⟩

theorem rejects_text (hs : s <:+ rd.bytes) (h : AtTag s) : rd.Rejects text s :=
  Reader.rejects_map (Reader.rejects_many1 (rejects_piece hs h))

end Pieces

section Blanks

theorem isBlank_of_isSpace (h : Term.isSpace c = true) : Text.isBlank c.toNat = true := by
  simp only [Term.isSpace, Bool.or_eq_true, decide_eq_true_eq] at h
  rcases h with ((rfl | rfl) | rfl) | rfl <;> decide

theorem trimBlanks_append {before : List Char} (h : before.all Term.isSpace = true) :
    trimBlanks (before ++ cs) = trimBlanks cs := by
  have hdrop : (before ++ cs).dropWhile (fun c => Text.isBlank c.toNat) =
      cs.dropWhile fun c => Text.isBlank c.toNat := by
    apply List.dropWhile_append_of_pos
    intro c hc
    exact isBlank_of_isSpace (List.all_eq_true.mp h c hc)
  simp only [trimBlanks, hdrop]

theorem dropWhile_items (cs : List Char) :
    (cs.map Utf8.Item.ofChar).dropWhile Text.isBlankItem =
      (cs.dropWhile fun c => Text.isBlank c.toNat).map Utf8.Item.ofChar := List.dropWhile_map

theorem trim_ofChars (cs : List Char) :
    Text.trim (Utf8.ofChars cs) = Utf8.ofChars (trimBlanks cs) := by
  simp only [Text.trim, Utf8.items_ofChars, dropWhile_items, ← List.map_reverse, List.flatMap_map]
  rfl

end Blanks

end Backtrack.Xml
