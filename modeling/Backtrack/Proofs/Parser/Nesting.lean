import Mathlib.Data.Finset.Prod
import Backtrack.Proofs.Parser.Termination

/-!
# How deep references nest

What a term does inside a text is up to what its references do inside it. So whether they end there
is a finite table, with a row for every name and a column for every offset, in which a greater depth
only adds entries. Once a step of the depth adds none, no further step does. Hence a run that ends
at all ends within as many steps as there are entries, and the bound on references that the number
of definitions gives is greater than that: it is used up only by runs without an end. No definition
has to be well-behaved for that, those that lead back to themselves on their left are no exception.
-/

namespace Backtrack

variable {ι : Type} {τ : ι → Type} {α β : Type}

namespace Run

theorem onSuccess_congr {r s : Run α} (h : r = s) {f g : α → Int → Run β}
    (hfg : ∀ a next, r.outcome = .success a next → f a next = g a next) :
    r.onSuccess f = s.onSuccess g := by
  subst h
  unfold onSuccess
  split
  · rename_i a next hmatch
    rw [hfg a next hmatch]
  all_goals rfl

theorem onMiss_congr {r s : Run α} (h : r = s) {f g : Int → Run α}
    (hfg : ∀ missed, f missed = g missed) : r.onMiss f = s.onMiss g := by
  rw [h, funext hfg]

theorem AgreeUnless.eq_of_ends {r s : Run α} (h : r.AgreeUnless Definitions.TooDeep s)
    (hr : r.Ends) : r = s := by
  apply h.eq
  rintro why hwhy rfl
  cases houtcome : r.outcome <;> simp_all [Outcome.stop?, Ends]

end Run

/-- A report that cannot be made is another breakdown than the bound on references. -/
theorem Outcome.judge_outOfFuel_iff {o : Outcome α} {input : Input} {allowTrailing : Bool} :
    o.judge input allowTrailing = .error .outOfFuel ↔ o = .halted .outOfFuel := by
  have hreport : ∀ offset trailing,
      (judge.report input offset trailing : Except Halt (Except Error α)) ≠ .error .outOfFuel := by
    intro offset trailing
    unfold judge.report
    split <;> nofun
  cases o with
  | success value next =>
    unfold judge
    dsimp only
    split
    · simp [hreport]
    · simp
  | miss next => simp [judge, hreport]
  | fatal error => simp [judge]
  | halted why => simp [judge]

namespace Parser

variable {p : Parser α}

/-- An evaluation uses up the bound exactly if the run from the start of its text does. -/
theorem evaluate_outOfFuel_iff {text : Bytes} {requests : List Setting} :
    (p.evaluate text requests).result = .error .outOfFuel ↔
      ∃ settings, Settings.ofList requests = .ok settings ∧
        (p (Input.ofBytes settings.filename text) 0).outcome = .halted .outOfFuel := by
  unfold evaluate
  cases Settings.ofList requests with
  | error error => simp
  | ok settings => simp [Outcome.judge_outOfFuel_iff]

theorem matchedText_outOfFuel_iff {input : Input} {offset : Int} :
    (p.matchedText input offset).outcome = .halted .outOfFuel ↔
      (p input offset).outcome = .halted .outOfFuel := by
  unfold matchedText Run.onSuccess
  cases (p input offset).outcome with
  | success value next =>
    cases input.place? offset <;> simp [Run.ofExcept, Run.after, Run.fault, Run.success]
  | miss | fatal | halted => simp

end Parser

namespace Parser

/-- Two parsers run in the same way wherever they start inside a text. -/
def SameIn (input : Input) (p q : Parser α) : Prop :=
  ∀ offset : Int, 0 ≤ offset → offset ≤ input.size → p input offset = q input offset

namespace SameIn

variable {input : Input} {p p' : Parser α}

theorem behind {q q' : Parser β} (hq : q.SameIn input q') (hw : p.Within .lax) {offset : Int}
    (h : 0 ≤ offset) (hsize : offset ≤ input.size) {a : α} {next : Int}
    (ha : (p input offset).outcome = .success a next) : q input next = q' input next := by
  obtain ⟨hnext, hnsize⟩ := hw.of_success h hsize ha
  exact hq next (by omega) hnsize

theorem sequenceFrom {n : Nat} {ps ps' : Fin n → Parser α} (hw : ∀ i, (ps i).Within .lax)
    (hps : ∀ i, (ps i).SameIn input (ps' i)) (values : List α) :
    (Parser.sequenceFrom values (List.ofFn ps)).SameIn input
      (Parser.sequenceFrom values (List.ofFn ps')) := by
  induction n generalizing values with
  | zero => exact fun _ _ _ => rfl
  | succ n ih =>
    simp only [List.ofFn_succ]
    intro offset h hsize
    apply Run.onSuccess_congr (hps 0 offset h hsize)
    intro a next ha
    exact (ih (hw ·.succ) (hps ·.succ) (a :: values)).behind (hw 0) h hsize ha

theorem oneOfFrom {n : Nat} {ps ps' : Fin n → Parser α} (hps : ∀ i, (ps i).SameIn input (ps' i))
    (furthest : Int) :
    (Parser.oneOfFrom furthest (List.ofFn ps)).SameIn input
      (Parser.oneOfFrom furthest (List.ofFn ps')) := by
  induction n generalizing furthest with
  | zero => exact fun _ _ _ => rfl
  | succ n ih =>
    simp only [List.ofFn_succ]
    intro offset h hsize
    apply Run.onMiss_congr (hps 0 offset h hsize)
    exact fun missed => ih (hps ·.succ) _ offset h hsize

section Loops

variable (hw : p.Within .lax) (hp : p.SameIn input p')
include hw hp

theorem repeatExactly {rest rest' : List α → Parser (List α)}
    (hrest : ∀ values, (rest values).SameIn input (rest' values)) (n : Nat) (values : List α) :
    (Parser.repeatExactly p rest n values).SameIn input
      (Parser.repeatExactly p' rest' n values) := by
  induction n generalizing values with
  | zero => exact hrest values
  | succ n ih =>
    intro offset h hsize
    apply Run.onSuccess_congr (hp offset h hsize)
    exact fun a next ha => (ih (a :: values)).behind hw h hsize ha

theorem repeatUpTo (n : Nat) (values : List α) (trace : Trace) {offset : Int} (h : 0 ≤ offset)
    (hsize : offset ≤ input.size) :
    Parser.repeatUpTo p input n values trace offset =
      Parser.repeatUpTo p' input n values trace offset := by
  induction n generalizing values trace offset with
  | zero => rfl
  | succ n ih =>
    unfold Parser.repeatUpTo
    rw [← hp offset h hsize]
    dsimp only
    split
    · rename_i a next ha
      obtain ⟨hnext, hnsize⟩ := hw.of_success h hsize ha
      exact ih _ _ (by omega) hnsize
    all_goals rfl

theorem repeatMany (fuel : Nat) (values : List α) (trace : Trace) {offset : Int} (h : 0 ≤ offset)
    (hsize : offset ≤ input.size) :
    Parser.repeatMany p input fuel values trace offset =
      Parser.repeatMany p' input fuel values trace offset := by
  induction fuel generalizing values trace offset with
  | zero => rfl
  | succ fuel ih =>
    unfold Parser.repeatMany
    rw [← hp offset h hsize]
    dsimp only
    split
    · rename_i a next ha
      obtain ⟨hnext, hnsize⟩ := hw.of_success h hsize ha
      split
      · rfl
      · exact ih _ _ (by omega) hnsize
    all_goals rfl

theorem repeated (bounds : Bounds) : (p.repeated bounds).SameIn input (p'.repeated bounds) := by
  intro offset h hsize
  rw [Parser.repeated_eq, Parser.repeated_eq]
  split
  · refine repeatExactly hw hp (fun values next hnext hnsize => ?_) _ [] offset h hsize
    unfold Parser.further
    split
    · exact repeatMany hw hp _ values _ hnext hnsize
    · exact repeatUpTo hw hp _ values _ hnext hnsize
  · rfl

end Loops

end SameIn
end Parser

namespace Term

variable {refs refs' : (i : ι) → Parser (τ i)} {input : Input}

/-- Where a term starts inside a text, nothing that its references do elsewhere has a bearing on
it. -/
theorem parser_sameIn (hwithin : ∀ i, (refs i).Within .lax)
    (hrefs : ∀ i, (refs i).SameIn input (refs' i)) (t : Term τ α) :
    (t.parser refs).SameIn input (t.parser refs') := by
  have hall : ∀ {α : Type} (t : Term τ α), (t.parser refs).Within .lax :=
    fun t => t.parser_within_lax hwithin
  induction t with
  | satisfy | literal | pattern | atEnd | always | never | fault => exact fun _ _ _ => rfl
  | and p q ihp ihq =>
    intro offset h hsize
    apply Run.onSuccess_congr (ihp offset h hsize)
    exact fun a middle ha => Run.onSuccess_congr (ihq.behind (hall p) h hsize ha) fun _ _ _ => rfl
  | sequence n ps ih => exact .sequenceFrom (fun i => hall (ps i)) ih []
  | map f p ih | mapErr f p ih | filter f p ih =>
    exact fun offset h hsize => Run.onSuccess_congr (ih offset h hsize) fun _ _ _ => rfl
  | lookahead p ih =>
    exact fun offset h hsize => Run.onSuccess_congr (ih offset h hsize) fun _ _ _ => rfl
  | flatMap p f ihp ihf =>
    intro offset h hsize
    apply Run.onSuccess_congr (ihp offset h hsize)
    intro a middle ha
    exact Run.onSuccess_congr ((ihf a).behind (hall p) h hsize ha) fun _ _ _ => rfl
  | or p q ihp ihq =>
    intro offset h hsize
    apply Run.onMiss_congr (ihp offset h hsize)
    exact fun missed => Run.onMiss_congr (ihq offset h hsize) fun _ => rfl
  | oneOf n ps ih => exact fun offset h hsize => Parser.SameIn.oneOfFrom ih offset offset h hsize
  | repeated bounds p ih => exact ih.repeated (hall p) bounds
  | optional default p ih =>
    exact fun offset h hsize => Run.onMiss_congr (ih offset h hsize) fun _ => rfl
  | commit diagnostic p ih =>
    exact fun offset h hsize => Run.onMiss_congr (ih offset h hsize) fun _ => rfl
  | not p ih =>
    intro offset h hsize
    simp only [parser, Parser.not, ih offset h hsize]
  | named name p ih =>
    intro offset h hsize
    simp only [parser, Parser.named, ih offset h hsize]
  | ref i => exact hrefs i

end Term

namespace Parser

open Classical in
/-- One parser inside a text, and another one everywhere else. -/
noncomputable def inside (input : Input) (p q : Parser α) : Parser α := fun text offset =>
  if text = input ∧ 0 ≤ offset ∧ offset ≤ input.size then p text offset else q text offset

theorem sameIn_inside {input : Input} {p : Parser α} (q : Parser α) :
    p.SameIn input (inside input p q) :=
  fun _ h hsize => (if_pos ⟨rfl, h, hsize⟩).symm

end Parser

namespace Definitions

variable {defs : Definitions τ} {input : Input} {depth : Nat}

/-- One step deeper no further reference ends inside a text. -/
def DeepEnough (defs : Definitions τ) (input : Input) (depth : Nat) : Prop :=
  ∀ i (offset : Int), 0 ≤ offset → offset ≤ input.size →
    (defs.refsAt (depth + 1) i input offset).Ends → (defs.refsAt depth i input offset).Ends

/-- What ends inside a text at one depth has ended the same way at the depth before, if no further
reference ends. -/
theorem DeepEnough.inside_agreeUnless (hdepth : defs.DeepEnough input depth) (i : ι) :
    (Parser.inside input (defs.refsAt (depth + 1) i) (defs.refsAt depth i)).AgreeUnless TooDeep
      (defs.refsAt depth i) := by
  intro text offset
  unfold Parser.inside
  split
  · rename_i hinside
    obtain ⟨rfl, h, hsize⟩ := hinside
    by_cases hends : (defs.refsAt (depth + 1) i text offset).Ends
    · right
      exact ((defs.refsAt_succ depth i text offset).eq_of_ends (hdepth i offset h hsize hends)).symm
    · left
      exact ⟨_, by rw [of_not_not hends]; rfl, rfl⟩
  · exact .refl _

theorem DeepEnough.term_ends (hdepth : defs.DeepEnough input depth) (t : Term τ α) {offset : Int}
    (h : 0 ≤ offset) (hsize : offset ≤ input.size)
    (hends : (t.parser (defs.refsAt (depth + 1)) input offset).Ends) :
    (t.parser (defs.refsAt depth) input offset).Ends := by
  have hsame := t.parser_sameIn (defs.refsAt_within_lax (depth + 1))
    (fun i => Parser.sameIn_inside (defs.refsAt depth i)) offset h hsize
  have hagree := t.parser_agreeUnless hdepth.inside_agreeUnless input offset
  rw [hsame] at hends
  rwa [← hagree.eq_of_ends hends]

theorem DeepEnough.succ (hdepth : defs.DeepEnough input depth) :
    defs.DeepEnough input (depth + 1) := by
  intro i offset h hsize hends
  simp only [refsAt] at hends ⊢
  cases hbody : defs i with
  | none =>
    intro hfuel
    cases hfuel
  | some body =>
    rw [hbody] at hends
    dsimp only at hends ⊢
    rw [parserAt_eq] at hends ⊢
    exact hdepth.term_ends body h hsize hends

theorem DeepEnough.mono (hdepth : defs.DeepEnough input depth) {depth' : Nat} (h : depth ≤ depth') :
    defs.DeepEnough input depth' := by
  induction h with
  | refl => exact hdepth
  | step _ ih => exact ih.succ

/-- Once no further reference ends no further run does. -/
theorem DeepEnough.parserAt_ends (hdepth : defs.DeepEnough input depth) {depth' : Nat}
    (hle : depth ≤ depth') (t : Term τ α) {offset : Int} (h : 0 ≤ offset)
    (hsize : offset ≤ input.size) (hends : (defs.parserAt depth' t input offset).Ends) :
    (defs.parserAt depth t input offset).Ends := by
  induction hle with
  | refl => exact hends
  | @step depth' hle ih =>
    apply ih
    rw [parserAt_eq] at hends ⊢
    exact (hdepth.mono hle).term_ends t h hsize hends

open Classical in
/-- The references that end within a depth, each with the offset where it starts. -/
noncomputable def ending (defs : Definitions τ) (names : Finset ι) (input : Input) (depth : Nat) :
    Finset (ι × Nat) :=
  (names ×ˢ Finset.range (input.size + 1)).filter fun x =>
    (defs.refsAt depth x.1 input (x.2 : Nat)).Ends

variable {names : Finset ι}

open Classical in
theorem mem_ending {i : ι} {place : Nat} :
    (i, place) ∈ defs.ending names input depth ↔
      (i ∈ names ∧ place < input.size + 1) ∧ (defs.refsAt depth i input place).Ends := by
  unfold ending
  rw [Finset.mem_filter, Finset.mem_product, Finset.mem_range]

theorem card_ending_le :
    (defs.ending names input depth).card ≤ names.card * (input.size + 1) := by
  classical
  unfold ending
  refine (Finset.card_filter_le _ _).trans (Nat.le_of_eq ?_)
  rw [Finset.card_product, Finset.card_range]

theorem ending_subset_succ (names : Finset ι) :
    defs.ending names input depth ⊆ defs.ending names input (depth + 1) := by
  intro ⟨i, place⟩ hx
  obtain ⟨hinside, hends⟩ := mem_ending.mp hx
  apply mem_ending.mpr
  exact ⟨hinside, (defs.refsAt_succ depth i input place).eq_of_ends hends ▸ hends⟩

variable (hnames : ∀ i body, defs i = some body → i ∈ names)
include hnames

/-- A depth is enough if the next one adds no entry. -/
theorem deepEnough_iff : defs.DeepEnough input (depth + 1) ↔
    (defs.ending names input (depth + 2)).card = (defs.ending names input (depth + 1)).card := by
  constructor
  · intro hdepth
    congr 1
    apply (ending_subset_succ names).antisymm'
    intro ⟨i, place⟩ hx
    obtain ⟨hinside, hends⟩ := mem_ending.mp hx
    exact mem_ending.mpr ⟨hinside, hdepth i place (by omega) (by omega) hends⟩
  · intro hcard i offset h hsize hends
    cases hbody : defs i with
    | none =>
      -- No entry is for a name without a definition, but a breakdown is an end, too.
      simp only [refsAt, hbody]
      intro hfuel
      cases hfuel
    | some body =>
      have heq := Finset.eq_of_subset_of_card_le (ending_subset_succ names) hcard.le
      obtain ⟨place, rfl⟩ := Int.eq_ofNat_of_zero_le h
      have hx := mem_ending.mpr ⟨⟨hnames i body hbody, by omega⟩, hends⟩
      rw [← heq] at hx
      exact (mem_ending.mp hx).2

/-- The references that end at all end within as many steps as there are entries for them. -/
theorem card_ending_eq (h : names.card * (input.size + 1) ≤ depth) :
    (defs.ending names input (depth + 1)).card =
      (defs.ending names input (names.card * (input.size + 1) + 1)).card := by
  apply Nat.stabilises_of_monotone (f := fun depth => (defs.ending names input (depth + 1)).card)
  · exact monotone_nat_of_le_succ fun _ => Finset.card_le_card (ending_subset_succ names)
  · exact fun _ => card_ending_le
  · intro depth heq
    exact ((deepEnough_iff hnames).mp ((deepEnough_iff hnames).mpr heq.symm).succ).symm
  · exact h

theorem deepEnough_of_lt (h : names.card * (input.size + 1) < depth) :
    defs.DeepEnough input depth := by
  obtain ⟨depth, rfl⟩ := Nat.exists_eq_add_one_of_ne_zero (Nat.ne_of_gt (Nat.zero_lt_of_lt h))
  apply (deepEnough_iff hnames).mpr
  rw [card_ending_eq hnames (Nat.le_of_lt h), card_ending_eq hnames (Nat.le_of_lt_succ h)]

theorem deepEnough_depth {n : Nat} (hn : names.card ≤ n) :
    defs.DeepEnough input (Definitions.depth n input) := by
  apply deepEnough_of_lt hnames
  exact Nat.mul_lt_mul'' (Nat.lt_succ_of_le hn) (Nat.lt_succ_self _)

section Bound

variable {n : Nat} (hn : names.card ≤ n) (t : Term τ α) {offset : Int}
include hn

/-- The bound on references that belongs to the number of definitions is enough for every run that
ends at all. -/
theorem yields_iff (h : 0 ≤ offset) (hsize : offset ≤ input.size) {r : Run α} :
    defs.Yields t input offset r ↔ r.Ends ∧ defs.parser n t input offset = r := by
  constructor
  · intro hr
    have hparser : (defs.parser n t input offset).Ends := by
      obtain ⟨hends, depth', rfl⟩ := hr
      rcases Nat.le_total depth' (depth n input) with hle | hle
      · unfold parser
        rwa [defs.parserAt_eq_of_le hle t input offset hends]
      · exact (deepEnough_depth hnames hn).parserAt_ends hle t h hsize hends
    exact ⟨hr.1, Yields.unique ⟨hparser, _, rfl⟩ hr⟩
  · rintro ⟨hends, rfl⟩
    exact ⟨hends, _, rfl⟩

/-- The bound is used up only where the run has no end. -/
theorem parser_outOfFuel_iff (h : 0 ≤ offset) (hsize : offset ≤ input.size) :
    (defs.parser n t input offset).outcome = .halted .outOfFuel ↔
      ∀ r, ¬ defs.Yields t input offset r := by
  constructor
  · rintro hfuel r hr
    obtain ⟨hends, rfl⟩ := (yields_iff hnames hn t h hsize).mp hr
    exact hends hfuel
  · intro hnone
    by_contra hends
    exact hnone _ ((yields_iff hnames hn t h hsize).mpr ⟨hends, rfl⟩)

end Bound

/-- A definition that leads back to itself on its left: it depends on the text whether a run has an
end. -/
example : ∀ r, ¬ Definitions.Yields (fun _ : Unit => some (.or .digit (.ref ())))
    (.ref ()) (Input.ofBytes [] "a") 0 r := by
  have hnames (i : Unit) : i ∈ ({()} : Finset Unit) := Finset.mem_singleton_self ()
  exact (parser_outOfFuel_iff (fun i _ _ => hnames i) (Nat.le_refl 1) _ (by decide)
    (by decide)).mp rfl

end Definitions
end Backtrack
