import Backtrack.Proofs.Ebnf.Lexing

/-!
# Where the tokens of a text stand

Whatever a text is made of, its tokens stand in it one behind the other: the characters do, and each
token begins with one of those that the token before it left. The end comes last. Identifiers are
made of the characters that they show.

This module does NOT say which tokens a text has.
-/

namespace Backtrack.Ebnf

variable {cells rest : List Cell} {c : Cell} {s : Scan} {text : Bytes}

theorem skipOne_suffix (cells : List Cell) (s : Scan) : (skipOne cells s).1 <:+ cells :=
  List.drop_suffix 1 cells

theorem skipWhile_eq (condition : Char → Bool) (cells : List Cell) (s : Scan) :
    (skipWhile condition cells s).1 = cells.dropWhile fun c => condition c.char := by
  induction cells generalizing s with
  | nil => rfl
  | cons c rest ih =>
    unfold skipWhile
    rw [List.dropWhile_cons]
    split
    · exact ih _
    · rfl

theorem skipWhile_suffix (condition : Char → Bool) (cells : List Cell) (s : Scan) :
    (skipWhile condition cells s).1 <:+ cells := by
  rw [skipWhile_eq]
  exact List.dropWhile_suffix _

theorem readQuoted_suffix (quote : Char) (state : Quoting) (count : Nat) (cells : List Cell)
    (s : Scan) : (readQuoted quote state count cells s).1.1 <:+ cells := by
  induction cells generalizing state count s with
  | nil => exact List.suffix_rfl
  | cons c rest ih =>
    have hrest : ∀ state count s, (readQuoted quote state count rest s).1.1 <:+ c :: rest :=
      fun state count s => (ih state count s).trans (List.suffix_cons c rest)
    unfold readQuoted
    extract_lets atPlain
    have hplain : ∀ count s, (atPlain count s).1.1 <:+ c :: rest := by
      intro count s
      simp only [atPlain]
      split
      · exact List.suffix_rfl
      split
      · exact List.suffix_rfl
      split <;> exact hrest _ _ _
    split
    · exact hplain _ _
    · split
      · exact hrest _ _ _
      · exact hrest _ _ _
      · exact hrest _ _ _
      · exact hplain _ _
    · split
      · exact hplain _ _
      split
      · exact hrest _ _ _
      · exact hplain _ _

theorem readRaw_suffix (cells : List Cell) (s : Scan) : (readRaw cells s).1 <:+ cells := by
  induction cells generalizing s with
  | nil => exact List.suffix_rfl
  | cons c rest ih =>
    unfold readRaw
    split
    · exact List.suffix_rfl
    · exact (ih _).trans (List.suffix_cons c rest)

theorem readBlockComment_suffix (starred : Bool) (cells : List Cell) (s : Scan) :
    (readBlockComment starred cells s).1 <:+ cells := by
  induction cells generalizing starred s with
  | nil => exact List.suffix_rfl
  | cons c rest ih =>
    unfold readBlockComment
    split
    · exact List.suffix_cons c rest
    · exact (ih _ _).trans (List.suffix_cons c rest)

theorem readDigits_suffix (base : Nat) (cells : List Cell) (s : Scan) :
    (readDigits base cells s).2.1 <:+ cells := skipWhile_suffix _ cells s

theorem readRadix_suffix (cells : List Cell) (s : Scan) : (readRadix cells s).2.1 <:+ cells := by
  unfold readRadix
  dsimp only
  split <;> first | exact skipOne_suffix _ _ | exact List.suffix_rfl

/-- A digit is passed over. -/
theorem readDigits_suffix_rest (rest : List Cell) (s : Scan)
    (hc : isDecimal c.char = true) : (readDigits 10 (c :: rest) s).2.1 <:+ rest := by
  have hdigit : ((if 10 ≤ 10 then isDecimal c.char else digitValue c.char < 16) || c.char = '_')
      = true := by
    rw [if_pos (Nat.le_refl 10), hc, Bool.true_or]
  dsimp only [readDigits]
  rw [skipWhile, if_pos hdigit]
  exact skipWhile_suffix _ _ _

/-- What is left of a number is left behind its point or its first digit. -/
theorem readNumber_suffix (start : List Cell) {behindPoint : Bool} (s : Scan)
    (h : behindPoint = true ∧ cells = rest ∨
      behindPoint = false ∧ ∃ c, isDecimal c.char = true ∧ cells = c :: rest) :
    (readNumber start behindPoint cells s).2.1 <:+ rest := by
  unfold readNumber
  split
  rename_i radix cells₁ s₁ h₁
  split
  rename_i whole cells₂ s₂ h₂
  split
  rename_i hasPoint cells₃ s₃ h₃
  extract_lets s₄
  split
  rename_i part cells₄ s₅ h₄
  extract_lets s₆
  split
  rename_i kind separated cells₅ s₇ h₅
  dsimp only
  have hwhole : cells₂ <:+ rest := by
    rcases h with ⟨rfl, rfl⟩ | ⟨rfl, c, hc, rfl⟩
    · cases h₁
      cases h₂
      exact List.suffix_rfl
    · rw [if_neg Bool.false_ne_true] at h₂
      obtain rfl : _ = cells₂ := congrArg (fun r => r.2.1) h₂
      split at h₁
      · obtain rfl : _ = cells₁ := congrArg (fun r => r.2.1) h₁
        exact (readDigits_suffix _ _ _).trans (readRadix_suffix _ _)
      · cases h₁
        exact readDigits_suffix_rest rest s hc
  have hpoint : cells₃ <:+ cells₂ := by
    obtain rfl : _ = cells₃ := congrArg (fun r => r.2.1) h₃
    split
    · exact List.suffix_rfl
    split
    · exact skipOne_suffix _ _
    · exact List.suffix_rfl
  have hpart : cells₄ <:+ cells₃ := by
    obtain rfl : _ = cells₄ := congrArg (fun r => r.2.1) h₄
    split
    · exact readDigits_suffix _ _ _
    · exact List.suffix_rfl
  have hexponent : cells₅ <:+ cells₄ := by
    obtain rfl : _ = cells₅ := congrArg (fun r => r.2.2.1) h₅
    split
    · split
      · refine (readDigits_suffix _ _ _).trans (List.IsSuffix.trans ?_ (List.suffix_cons _ _))
        split
        · exact skipOne_suffix _ _
        · exact List.suffix_rfl
      · exact List.suffix_rfl
    · exact List.suffix_rfl
  exact hexponent.trans (hpart.trans (hpoint.trans hwhole))

theorem readToken_suffix (c : Cell) (rest : List Cell) (s : Scan) :
    (readToken c rest s).2.1 <:+ rest := by
  unfold readToken
  extract_lets start s₁ closed
  have hclosed : ∀ kind left, left.1 <:+ rest → (closed kind left).2.1 <:+ rest :=
    fun kind left h => (skipOne_suffix left.1 left.2).trans h
  split
  · exact skipWhile_suffix _ _ _
  split
  · rename_i hc
    have hnumber : (readNumber start false start s).2.1 <:+ rest :=
      readNumber_suffix start s (.inr ⟨rfl, c, hc, rfl⟩)
    split
    rename_i kind left h
    rwa [h] at hnumber
  split
  · exact hclosed _ _ (readQuoted_suffix _ _ _ _ _)
  · exact hclosed _ _ (readQuoted_suffix _ _ _ _ _)
  · exact hclosed _ _ (readRaw_suffix _ _)
  · split
    · exact readNumber_suffix _ _ (.inl ⟨rfl, rfl⟩)
    · exact List.suffix_rfl
  · split
    · exact (skipWhile_suffix _ _ _).trans (skipOne_suffix _ _)
    split
    · exact (readBlockComment_suffix _ _ _).trans (skipOne_suffix _ _)
    · exact List.suffix_rfl
  · exact List.suffix_rfl

theorem readNumber_kind_ne (start : List Cell) (behindPoint : Bool) (cells : List Cell) (s : Scan) :
    (readNumber start behindPoint cells s).1 ≠ .ending ∧
      (readNumber start behindPoint cells s).1 ≠ .identifier := by
  unfold readNumber
  split
  split
  split
  extract_lets
  split
  extract_lets
  split
  rename_i kind separated cells s h
  dsimp only
  obtain rfl : _ = kind := congrArg (fun r => r.1) h
  split
  · split
    · simp
    · dsimp only
      split <;> simp
  · dsimp only
    split <;> simp

/-- What is read for a token is not the end, and an identifier has all the characters that can go
on it. -/
theorem readToken_kind {kind : Kind} {left : Left} (h : readToken c rest s = (some kind, left)) :
    kind ≠ .ending ∧ (kind = .identifier →
      startsIdentifier c.char = true ∧
        left.1 = rest.dropWhile fun d => continuesIdentifier d.char) := by
  have hkind : (readToken c rest s).1 = some kind := congrArg Prod.fst h
  have hleft : (readToken c rest s).2 = left := congrArg Prod.snd h
  by_cases hc : startsIdentifier c.char = true
  · rw [readToken, if_pos hc] at hkind hleft
    cases hkind
    subst hleft
    exact ⟨by simp, fun _ => ⟨hc, skipWhile_eq _ _ _⟩⟩
  -- Whatever else a token starts with, its kind is another.
  suffices hne : kind ≠ .ending ∧ kind ≠ .identifier from ⟨hne.1, fun h => absurd h hne.2⟩
  rw [readToken, if_neg hc] at hkind
  have hnumber : ∀ start behindPoint cells s,
      some (readNumber start behindPoint cells s).1 = some kind →
        kind ≠ .ending ∧ kind ≠ .identifier := by
    intro start behindPoint cells s h
    rw [← Option.some.inj h]
    exact readNumber_kind_ne start behindPoint cells s
  split at hkind
  · exact hnumber _ _ _ _ hkind
  extract_lets at hkind
  split at hkind
  · cases hkind
    simp
  · cases hkind
    simp
  · cases hkind
    simp
  · split at hkind
    · exact hnumber _ _ _ _ hkind
    · cases hkind
      simp
  · split at hkind
    · cases hkind
    split at hkind
    · cases hkind
    · cases hkind
      simp
  · cases hkind
    simp

def places (laid : List Cell × Position) : List Position :=
  laid.1.map Cell.position ++ [laid.2]

def Ascending (ps : List Position) : Prop := ps.Pairwise fun p q => p.offset < q.offset

theorem ascending_cons {p : Position} {item : Utf8.Item} {items : List Utf8.Item}
    (hitem : item.bytes ≠ [])
    (h : Ascending (places (layOut (advance p item) items)) ∧
      ∀ q ∈ places (layOut (advance p item) items), (advance p item).offset ≤ q.offset) :
    Ascending (places (layOut p (item :: items))) ∧
      ∀ q ∈ places (layOut p (item :: items)), p.offset ≤ q.offset := by
  have hplaces : places (layOut p (item :: items)) =
      p :: places (layOut (advance p item) items) := rfl
  have hoffset : p.offset < (advance p item).offset := by
    have hlength := List.length_pos_iff.mpr hitem
    unfold advance
    split <;> (dsimp only; omega)
  have hlater : ∀ q ∈ places (layOut (advance p item) items), p.offset < q.offset :=
    fun q hq => Int.lt_of_lt_of_le hoffset (h.2 q hq)
  rw [hplaces]
  refine ⟨List.pairwise_cons.mpr ⟨hlater, h.1⟩, ?_⟩
  refine List.forall_mem_cons.mpr ⟨Int.le_refl _, ?_⟩
  exact fun q hq => Int.le_of_lt (hlater q hq)

theorem ascending_places (p : Position) (text : Bytes) :
    Ascending (places (layOut p (Utf8.items text))) ∧
      ∀ q ∈ places (layOut p (Utf8.items text)), p.offset ≤ q.offset := by
  induction text using Utf8.chars_induction generalizing p with
  | nil => exact ⟨List.pairwise_singleton _ _, List.forall_mem_singleton.mpr (Int.le_refl _)⟩
  | char text c n h ih =>
    rw [Utf8.items_of_strict? h]
    exact ascending_cons (Utf8.encode_ne_nil c) (ih _)
  | stray b rest h ih =>
    rw [Utf8.items_of_stray h]
    exact ascending_cons (List.cons_ne_nil _ _) (ih _)

/-- Whether a cell shows what its character is written as, or a stray byte. -/
def Cell.Faithful (c : Cell) : Prop := c.bytes = Utf8.encode c.char ∨ c.char = Utf8.replacement

theorem faithful_layOut (p : Position) (text : Bytes) :
    ∀ c ∈ (layOut p (Utf8.items text)).1, c.Faithful := by
  induction text using Utf8.chars_induction generalizing p with
  | nil => nofun
  | char text c n h ih =>
    rw [Utf8.items_of_strict? h]
    exact List.forall_mem_cons.mpr ⟨.inl rfl, ih _⟩
  | stray b rest h ih =>
    rw [Utf8.items_of_stray h]
    exact List.forall_mem_cons.mpr ⟨.inr rfl, ih _⟩

/-- The text of an identifier: the UTF-8 bytes of letters, digits and underscores. -/
def Identifier (text : Bytes) : Prop :=
  ∃ cs, text = Utf8.ofChars cs ∧ ∀ c ∈ cs, continuesIdentifier c = true

theorem bytes_of_continuesIdentifier (hcell : c.Faithful)
    (hc : continuesIdentifier c.char = true) : c.bytes = Utf8.encode c.char := by
  refine hcell.resolve_right fun h => ?_
  have hnot : continuesIdentifier Utf8.replacement = false := by decide +kernel
  rw [h, hnot] at hc
  cases hc

/-- Cells whose characters go on an identifier show one. -/
theorem identifier_of_cells (hcells : ∀ c ∈ cells, c.Faithful)
    (h : ∀ c ∈ cells, continuesIdentifier c.char = true) :
    Identifier (cells.flatMap Cell.bytes) := by
  refine ⟨cells.map Cell.char, ?_, ?_⟩
  · rw [Utf8.ofChars, List.flatMap_map]
    rw [List.flatMap_def, List.flatMap_def]
    exact congrArg List.flatten
      (List.map_congr_left fun c hc => bytes_of_continuesIdentifier (hcells c hc) (h c hc))
  · exact List.forall_mem_map.mpr h

/-- Tokens with the end behind them, and nowhere else; identifiers have the characters of one. -/
inductive Listed : List Token → Prop where
  | ending {t : Token} (ht : t.kind = .ending) : Listed [t]
  | token {t : Token} {ts : List Token} (hkind : t.kind ≠ .ending)
      (hname : t.kind = .identifier → Identifier t.text) (hrest : Listed ts) : Listed (t :: ts)

theorem sublist_places {left : List Cell} (ending : Position) (h : left <:+ cells) :
    (places (left, ending)).Sublist (places (cells, ending)) :=
  (h.sublist.map Cell.position).append_right [ending]

/-- The text between the start of an identifier and what is left behind it. -/
theorem identifier_of_readToken {left : Left} (hcells : ∀ d ∈ c :: rest, d.Faithful)
    (h : readToken c rest s = (some .identifier, left)) :
    Identifier (((c :: rest).take (rest.length + 1 - left.1.length)).flatMap Cell.bytes) := by
  obtain ⟨hc, hleft⟩ := (readToken_kind h).2 rfl
  generalize hrun : rest.takeWhile (fun d => continuesIdentifier d.char) = run
  have hsplit : c :: rest = (c :: run) ++ left.1 := by
    rw [hleft, ← hrun, List.cons_append, List.takeWhile_append_dropWhile]
  have hlength : rest.length + 1 - left.1.length = (c :: run).length := by
    have h := congrArg List.length hsplit
    rw [List.length_append, List.length_cons] at h
    omega
  rw [hlength, hsplit, List.take_left]
  rw [hsplit] at hcells
  apply identifier_of_cells fun d hd => hcells d (List.mem_append_left _ hd)
  have hrun : ∀ d ∈ run, continuesIdentifier d.char = true := by
    subst hrun
    exact List.all_eq_true.mp List.all_takeWhile
  refine List.forall_mem_cons.mpr ⟨?_, hrun⟩
  rw [continuesIdentifier, hc, Bool.true_or]

/-- Tokens are read in the order of the cells, each from one of them on, and the end is the last. -/
theorem readTokens_listed (ending : Position) (fuel : Nat) (cells : List Cell) (s : Scan)
    (hcells : ∀ c ∈ cells, c.Faithful) :
    Listed (readTokens ending fuel cells s).1 ∧
      ((readTokens ending fuel cells s).1.map Token.position).Sublist (places (cells, ending)) := by
  have hend : ∀ cells : List Cell, Listed [⟨.ending, ending, []⟩] ∧
      [ending].Sublist (places (cells, ending)) :=
    fun cells => ⟨.ending rfl, List.sublist_append_right _ _⟩
  induction fuel generalizing cells s with
  | zero => exact hend cells
  | succ fuel ih =>
    have hskip := skipWhile_suffix isSeparator cells s
    unfold readTokens
    split
    · exact hend cells
    rename_i c rest s' hstart
    rw [hstart] at hskip
    have hleft := readToken_suffix c rest { s' with current := some c.position }
    have hbefore : ∀ d ∈ c :: rest, d.Faithful := fun d hd => hcells d (hskip.mem hd)
    have hplaces := sublist_places ending hskip
    split
    · rename_i left s'' htoken
      rw [htoken] at hleft
      obtain ⟨hlisted, hsub⟩ := ih left s'' fun d hd =>
        hbefore d (List.mem_cons_of_mem c (hleft.mem hd))
      refine ⟨hlisted, hsub.trans ((sublist_places ending ?_).trans hplaces)⟩
      exact hleft.trans (List.suffix_cons c rest)
    · rename_i kind left s'' htoken
      rw [htoken] at hleft
      obtain ⟨hlisted, hsub⟩ := ih left { s'' with current := none } fun d hd =>
        hbefore d (List.mem_cons_of_mem c (hleft.mem hd))
      have hkind := readToken_kind htoken
      refine ⟨.token hkind.1 ?_ hlisted, .trans (.cons_cons _ ?_) hplaces⟩
      · rintro rfl
        exact identifier_of_readToken hbefore htoken
      · exact hsub.trans (sublist_places ending hleft)

/-- The tokens of a text stand in it one behind the other, the end last. -/
theorem listed_tokensOf (filename text : Bytes) :
    Listed (tokensOf filename text).1 ∧
      Ascending ((tokensOf filename text).1.map Token.position) := by
  unfold tokensOf
  split
  rename_i laid ending hlaid
  extract_lets s
  split
  rename_i cells s' hmark
  have hcells : cells <:+ laid := by
    obtain rfl : _ = cells := congrArg Prod.fst hmark
    split
    · exact skipOne_suffix _ _
    · exact List.suffix_rfl
  have hfaithful := faithful_layOut { filename := filename, line := 1, column := 1 } text
  have hascending := (ascending_places { filename := filename, line := 1, column := 1 } text).1
  rw [hlaid] at hfaithful hascending
  obtain ⟨hlisted, hsub⟩ := readTokens_listed ending (cells.length + 1) cells s' fun c hc =>
    hfaithful c (hcells.mem hc)
  exact ⟨hlisted, hascending.sublist (hsub.trans (sublist_places ending hcells))⟩

end Backtrack.Ebnf
