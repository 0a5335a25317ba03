import Backtrack.Proofs.Parser.Bounds
import Backtrack.Proofs.Regex.Locality

/-!
# A run depends on the rest of the text

Bytes in front of the text a run reads change nothing but the count: with as many more bytes in
front, a run from as much further on comes to the same, and all offsets are larger by their number.
The functions that a grammar brings along have to play along, of course. A complaint must not have a
place of its own, and what is said about an offset must not depend on how much is in front of it.

This module does NOT say anything about the text behind the end of a match, which does count.
-/

namespace Backtrack

/-- The input with more bytes in front of its text. -/
def Input.withFront (front : Array UInt8) (input : Input) : Input :=
  ⟨input.filename, front ++ input.text⟩

/-- The outcome at offsets that are larger by `n`, with errors about another input. -/
def Outcome.moved {α : Type} (n : Nat) (whole : Input) : Outcome α → Outcome α
  | success value next => success value (n + next)
  | miss next => miss (n + next)
  | fatal error => fatal { error with offset := n + error.offset, input := whole }
  | halted why => halted why

theorem Outcome.moved_eq_halted {α : Type} {n : Nat} {whole : Input} {o : Outcome α} {why : Halt} :
    o.moved n whole = .halted why ↔ o = .halted why := by
  cases o <;> simp [Outcome.moved]

namespace Input

variable (front : Array UInt8) (input : Input)

theorem size_withFront : (input.withFront front).size = front.size + input.size :=
  Array.size_append

theorem slice_withFront (p q : Nat) :
    (input.withFront front).slice (front.size + p) (front.size + q) = input.slice p q := by
  unfold slice withFront
  rw [extract_append_size]

variable {offset : Int}

theorem toNat_withFront (h : 0 ≤ offset) :
    ((front.size : Int) + offset).toNat = front.size + offset.toNat := by
  omega

theorem place?_withFront (h : 0 ≤ offset) (hsize : offset ≤ input.size) :
    (input.withFront front).place? (front.size + offset) = .ok (front.size + offset.toNat) := by
  have hwhole := input.size_withFront front
  rw [place?_eq _ (by omega) (by omega), toNat_withFront front h]

theorem char?_withFront (h : 0 ≤ offset) :
    (input.withFront front).char? (front.size + offset) = input.char? offset := by
  have hwhole := input.size_withFront front
  unfold char?
  by_cases hsize : (input.size : Int) ≤ offset
  · rw [if_pos (by omega), if_pos hsize]
  · rw [if_neg (by omega), if_neg (by omega), if_neg hsize, if_neg (by omega),
      toNat_withFront front h]
    exact congrArg Except.ok (Utf8.at?_append front input.text)

theorem near_withFront (h : 0 ≤ offset) :
    (input.withFront front).near (front.size + offset) = input.near offset := by
  have hwhole := input.size_withFront front
  unfold near
  by_cases hsize : (input.size : Int) ≤ offset
  · rw [if_pos (by omega), if_pos hsize]
  · rw [if_neg (by omega), if_neg (by omega), if_neg hsize, if_neg (by omega),
      toNat_withFront front h, hwhole, slice_withFront]

/-- An error without a place is placed at the same byte. -/
theorem annotate_withFront (h : 0 ≤ offset) {error : Option Error}
    (herror : ∀ e ∈ error, e.Placeless) :
    (input.withFront front).annotate (front.size + offset) error =
      (input.annotate offset error).map fun e =>
        { e with offset := front.size + e.offset, input := input.withFront front } := by
  unfold annotate
  cases error with
  | none =>
    dsimp only
    rw [near_withFront front input h]
    cases input.near offset <;> rfl
  | some error =>
    dsimp only
    cases hparse : error.parseError? with
    | none => rfl
    | some parseError =>
      dsimp only
      rw [herror error rfl parseError hparse]
      rfl

end Input

/-- What is said about an offset stays the same with more in front, and has no place of its own. -/
def Diagnostic.Relative (diagnostic : Diagnostic) : Prop :=
  ∀ (front : Array UInt8) (input : Input) (offset : Int), 0 ≤ offset → offset ≤ input.size →
    diagnostic (input.withFront front) (front.size + offset) = diagnostic input offset ∧
      ∀ error, diagnostic input offset = .ok error → ∀ e ∈ error, e.Placeless

section Runs

variable {α β : Type} {n : Nat} {whole input : Input} {offset : Int}

theorem Run.onSuccess_moved {r r' : Run α} {f f' : α → Int → Run β}
    (hr : r'.outcome = r.outcome.moved n whole) (hwithin : r.Within .lax input offset)
    (hf : ∀ a next, offset ≤ next → next ≤ input.size →
      (f' a (n + next)).outcome = (f a next).outcome.moved n whole) :
    (r'.onSuccess f').outcome = (r.onSuccess f).outcome.moved n whole := by
  have hmatched := hwithin.matched
  obtain ⟨outcome, trace⟩ := r
  unfold Run.onSuccess
  rw [hr]
  cases outcome with
  | success a next =>
    have hnext := hmatched a next rfl
    exact hf a next hnext.1 hnext.2
  | miss | fatal | halted => rfl

theorem Run.onMiss_moved {r r' : Run α} {f f' : Int → Run α}
    (hr : r'.outcome = r.outcome.moved n whole) (hwithin : r.Within .lax input offset)
    (hf : ∀ next, offset ≤ next → next ≤ input.size →
      (f' (n + next)).outcome = (f next).outcome.moved n whole) :
    (r'.onMiss f').outcome = (r.onMiss f).outcome.moved n whole := by
  have hmissed := hwithin.missed
  obtain ⟨outcome, trace⟩ := r
  unfold Run.onMiss
  rw [hr]
  cases outcome with
  | miss next =>
    have hnext := hmissed next rfl
    exact hf next hnext.1 hnext.2
  | success | fatal | halted => exact hr

end Runs

/-- A parser whose runs depend on the rest of the text only. -/
structure Parser.Local {α : Type} (p : Parser α) : Prop where
  within : p.Within .lax
  moved : ∀ (front : Array UInt8) (input : Input) (offset : Int), 0 ≤ offset →
    offset ≤ input.size →
    (p (input.withFront front) (front.size + offset)).outcome =
      (p input offset).outcome.moved front.size (input.withFront front)

namespace Parser

variable {α β : Type}

theorem local_satisfy (condition : Char → Bool) : (satisfy condition).Local where
  within := within_satisfy condition
  moved front input offset h hsize := by
    unfold satisfy
    rw [input.char?_withFront front h]
    cases input.char? offset with
    | error f => rfl
    | ok r =>
      cases r with
      | none => rfl
      | some r =>
        dsimp only [Run.ofExcept]
        split
        · rw [Int.add_assoc]
          rfl
        · rfl

theorem local_literal (text : Bytes) : (literal text).Local where
  within := within_literal text
  moved front input offset h hsize := by
    unfold literal
    rw [input.place?_withFront front h hsize, input.place?_eq h hsize]
    dsimp only [Run.ofExcept]
    rw [Nat.add_assoc, Input.slice_withFront]
    split
    · rw [Int.add_assoc]
      rfl
    · rfl

theorem local_pattern (r : Regex) : (pattern r).Local where
  within := within_pattern r
  moved front input offset h hsize := by
    unfold pattern
    have hplace : offset.toNat ≤ input.text.size := by
      unfold Input.size at hsize
      omega
    rw [input.place?_withFront front h hsize, input.place?_eq h hsize]
    dsimp only [Run.ofExcept]
    rw [show (input.withFront front).text = front ++ input.text from rfl,
      Regex.findEnd?_append front input.text offset.toNat r hplace]
    cases r.findEnd? input.text offset.toNat with
    | none => rfl
    | some stop =>
      dsimp only [Option.map_some]
      rw [Input.slice_withFront]
      rfl

theorem local_atEnd : atEnd.Local where
  within := within_atEnd
  moved front input offset h hsize := by
    have hwhole := input.size_withFront front
    unfold atEnd
    by_cases hend : offset = input.size
    · rw [if_pos (by omega), if_pos hend]
      rfl
    · rw [if_neg (by omega), if_neg hend]
      rfl

theorem local_always (value : α) : (always value).Local where
  within := within_always value
  moved _ _ _ _ _ := rfl

theorem local_never : (never : Parser α).Local where
  within := within_never
  moved _ _ _ _ _ := rfl

theorem local_fault (f : Fault) : (fault f : Parser α).Local where
  within := within_fault trivial
  moved _ _ _ _ _ := rfl

namespace Local

variable {p : Parser α} {q : Parser β}

/-- Where a run has come to, it goes on in the same way on both sides. -/
theorem moved_next (hp : p.Local) {front : Array UInt8} {input : Input} {offset next : Int}
    (h : 0 ≤ offset) (hnext : offset ≤ next) (hsize : next ≤ input.size) :
    (p (input.withFront front) (front.size + next)).outcome =
      (p input next).outcome.moved front.size (input.withFront front) :=
  hp.moved front input next (by omega) hsize

theorem and (hp : p.Local) (hq : q.Local) : (p.and q).Local where
  within := hp.within.and hq.within
  moved front input offset h hsize := by
    apply Run.onSuccess_moved (hp.moved front input offset h hsize) (hp.within input offset h hsize)
    intro a middle hmiddle hmsize
    apply Run.onSuccess_moved (hq.moved_next h hmiddle hmsize)
      (hq.within input middle (by omega) hmsize)
    intro b next _ _
    rfl

theorem sequenceFrom {ps : List (Parser α)} (hps : ∀ p ∈ ps, p.Local) (values : List α) :
    (Parser.sequenceFrom values ps).Local := by
  induction ps generalizing values with
  | nil => exact local_always _
  | cons p ps ih =>
    have hp := hps p List.mem_cons_self
    have hps' : ∀ q ∈ ps, q.Local := fun q hq => hps q (List.mem_cons_of_mem p hq)
    refine ⟨.sequenceFrom (fun q hq => (hps q hq).within) values, ?_⟩
    intro front input offset h hsize
    apply Run.onSuccess_moved (hp.moved front input offset h hsize) (hp.within input offset h hsize)
    intro a next hnext hnsize
    exact (ih hps' (a :: values)).moved_next h hnext hnsize

theorem map (hp : p.Local) (f : α → β) : (p.map f).Local where
  within := hp.within.map f
  moved front input offset h hsize := by
    apply Run.onSuccess_moved (hp.moved front input offset h hsize) (hp.within input offset h hsize)
    intro a next _ _
    rfl

theorem mapErr (hp : p.Local) {f : α → Except Error β}
    (hf : ∀ a error, f a = .error error → error.Placeless) : (p.mapErr f).Local where
  within := hp.within.mapErr fun _ => hf
  moved front input offset h hsize := by
    apply Run.onSuccess_moved (hp.moved front input offset h hsize) (hp.within input offset h hsize)
    intro a next _ _
    cases hfa : f a with
    | ok b => rfl
    | error error =>
      have hless : ∀ e ∈ some error, e.Placeless := by
        intro e he
        cases he
        exact hf a error hfa
      dsimp only
      rw [input.annotate_withFront front h hless]
      cases input.annotate offset (some error) <;> rfl

theorem filter (hp : p.Local) (condition : α → Bool) : (p.filter condition).Local where
  within := hp.within.filter condition
  moved front input offset h hsize := by
    apply Run.onSuccess_moved (hp.moved front input offset h hsize) (hp.within input offset h hsize)
    intro a next _ _
    cases condition a <;> rfl

theorem flatMap (hp : p.Local) {f : α → Parser β} (hf : ∀ a, (f a).Local) :
    (p.flatMap f).Local where
  within := hp.within.flatMap fun a => (hf a).within
  moved front input offset h hsize := by
    apply Run.onSuccess_moved (hp.moved front input offset h hsize) (hp.within input offset h hsize)
    intro a middle hmiddle hmsize
    apply Run.onSuccess_moved ((hf a).moved_next h hmiddle hmsize)
      ((hf a).within input middle (by omega) hmsize)
    intro b next _ _
    rfl

theorem or {q : Parser α} (hp : p.Local) (hq : q.Local) : (p.or q).Local where
  within := hp.within.or hq.within
  moved front input offset h hsize := by
    apply Run.onMiss_moved (hp.moved front input offset h hsize) (hp.within input offset h hsize)
    intro missed _ _
    apply Run.onMiss_moved (hq.moved front input offset h hsize) (hq.within input offset h hsize)
    intro other _ _
    have hlater : (front.size : Int) + other < front.size + missed ↔ other < missed := by omega
    simp only [hlater]
    split <;> rfl

theorem oneOfFrom {ps : List (Parser α)} (hps : ∀ p ∈ ps, p.Local) {front : Array UInt8}
    {input : Input} {offset : Int} (h : 0 ≤ offset) (hsize : offset ≤ input.size)
    (furthest : Int) :
    (Parser.oneOfFrom (front.size + furthest) ps (input.withFront front)
      (front.size + offset)).outcome =
      (Parser.oneOfFrom furthest ps input offset).outcome.moved front.size
        (input.withFront front) := by
  induction ps generalizing furthest with
  | nil => rfl
  | cons p ps ih =>
    have hp := hps p List.mem_cons_self
    apply Run.onMiss_moved (hp.moved front input offset h hsize) (hp.within input offset h hsize)
    intro missed _ _
    have hlater : (front.size : Int) + furthest < front.size + missed ↔ furthest < missed := by
      omega
    have ih := ih fun q hq => hps q (List.mem_cons_of_mem p hq)
    simp only [hlater]
    split
    · exact ih missed
    · exact ih furthest

theorem oneOf {ps : List (Parser α)} (hps : ∀ p ∈ ps, p.Local) : (Parser.oneOf ps).Local where
  within := .oneOf fun p hp => (hps p hp).within
  moved _ _ _ h hsize := oneOfFrom hps h hsize _

theorem repeatExactly (hp : p.Local) {rest : List α → Parser (List α)}
    (hrest : ∀ values, (rest values).Local) (n : Nat) (values : List α) :
    (Parser.repeatExactly p rest n values).Local := by
  induction n generalizing values with
  | zero => exact hrest values
  | succ n ih =>
    refine ⟨hp.within.repeatExactly (fun values => (hrest values).within) (n + 1) values, ?_⟩
    intro front input offset h hsize
    apply Run.onSuccess_moved (hp.moved front input offset h hsize) (hp.within input offset h hsize)
    intro a next hnext hnsize
    exact (ih (a :: values)).moved_next h hnext hnsize

section Loops

variable (hp : p.Local) {front : Array UInt8} {input : Input}
include hp

theorem repeatUpTo (n : Nat) (values : List α) (trace trace' : Trace) (offset : Int)
    (h : 0 ≤ offset) (hsize : offset ≤ input.size) :
    (Parser.repeatUpTo p (input.withFront front) n values trace' (front.size + offset)).outcome =
      (Parser.repeatUpTo p input n values trace offset).outcome.moved front.size
        (input.withFront front) := by
  induction n generalizing values trace trace' offset with
  | zero => rfl
  | succ n ih =>
    have hmatched := (hp.within input offset h hsize).matched
    unfold Parser.repeatUpTo
    dsimp only
    rw [hp.moved front input offset h hsize]
    cases hr : (p input offset).outcome with
    | success a next =>
      obtain ⟨hnext, hnsize⟩ := hmatched a next hr
      exact ih (a :: values) _ _ next (by omega) hnsize
    | miss | fatal | halted => rfl

theorem repeatMany (fuel : Nat) (values : List α) (trace trace' : Trace) (offset : Int)
    (h : 0 ≤ offset) (hsize : offset ≤ input.size) :
    (Parser.repeatMany p (input.withFront front) fuel values trace' (front.size + offset)).outcome =
      (Parser.repeatMany p input fuel values trace offset).outcome.moved front.size
        (input.withFront front) := by
  induction fuel generalizing values trace trace' offset with
  | zero => rfl
  | succ fuel ih =>
    have hmatched := (hp.within input offset h hsize).matched
    unfold Parser.repeatMany
    dsimp only
    rw [hp.moved front input offset h hsize]
    cases hr : (p input offset).outcome with
    | success a next =>
      obtain ⟨hnext, hnsize⟩ := hmatched a next hr
      have hempty : (front.size : Int) + next = front.size + offset ↔ next = offset := by omega
      dsimp only [Outcome.moved]
      simp only [hempty]
      split
      · rfl
      · exact ih (a :: values) _ _ next (by omega) hnsize
    | miss | fatal | halted => rfl

theorem further (bounds : Bounds) (values : List α) : (Parser.further bounds p values).Local where
  within := hp.within.further bounds values
  moved front input next hnext hnsize := by
    have hleft : ((input.withFront front).size : Int) - (front.size + next) =
        input.size - next := by
      rw [input.size_withFront front]
      omega
    unfold Parser.further
    rw [hleft]
    split
    · exact hp.repeatMany _ values .nil .nil next hnext hnsize
    · exact hp.repeatUpTo _ values .nil .nil next hnext hnsize

theorem repeated (bounds : Bounds) : (p.repeated bounds).Local where
  within := hp.within.repeated (.inr trivial)
  moved front input offset h hsize := by
    rw [repeated_eq, repeated_eq]
    split
    · exact (hp.repeatExactly (hp.further bounds) bounds.least []).moved front input offset h hsize
    · rfl

end Loops

theorem optional (hp : p.Local) (default : α) : (p.optional default).Local where
  within := hp.within.optional default
  moved front input offset h hsize := by
    apply Run.onMiss_moved (hp.moved front input offset h hsize) (hp.within input offset h hsize)
    intro _ _ _
    rfl

theorem lookahead (hp : p.Local) : p.lookahead.Local where
  within := hp.within.lookahead
  moved front input offset h hsize := by
    apply Run.onSuccess_moved (hp.moved front input offset h hsize) (hp.within input offset h hsize)
    intro _ _ _ _
    rfl

theorem not (hp : p.Local) : p.not.Local where
  within := hp.within.not
  moved front input offset h hsize := by
    unfold Parser.not
    dsimp only
    rw [hp.moved front input offset h hsize]
    cases (p input offset).outcome <;> rfl

theorem commit (hp : p.Local) {diagnostic : Diagnostic} (hd : diagnostic.Relative) :
    (p.commit diagnostic).Local where
  within := hp.within.commit fun _ _ _ _ => ⟨fun _ _ => trivial, False.elim⟩
  moved front input offset h hsize := by
    apply Run.onMiss_moved (hp.moved front input offset h hsize) (hp.within input offset h hsize)
    intro missed hmissed hmsize
    have hm : 0 ≤ missed := by omega
    obtain ⟨hsame, hless⟩ := hd front input missed hm hmsize
    rw [hsame]
    cases hsaid : diagnostic input missed with
    | error f => rfl
    | ok error =>
      dsimp only [bind, Except.bind]
      rw [input.annotate_withFront front hm (hless error hsaid)]
      cases input.annotate missed error <;> rfl

theorem named (hp : p.Local) (name : Bytes) : (p.named name).Local where
  within := hp.within.named name
  moved := hp.moved

end Local
end Parser

section Terms

variable {ι : Type} {τ : ι → Type} {α : Type}

/-- The functions of the term know of no offset. -/
def Term.Relative : {α : Type} → Term τ α → Prop
  | _, satisfy _ | _, literal _ | _, pattern _ | _, atEnd | _, always _ | _, never | _, fault _
  | _, ref _ => True
  | _, and p q => p.Relative ∧ q.Relative
  | _, sequence _ ps => ∀ i, (ps i).Relative
  | _, map _ p => p.Relative
  | _, mapErr f p => (∀ a error, f a = .error error → error.Placeless) ∧ p.Relative
  | _, filter _ p => p.Relative
  | _, flatMap p f => p.Relative ∧ ∀ a, (f a).Relative
  | _, or p q => p.Relative ∧ q.Relative
  | _, oneOf _ ps => ∀ i, (ps i).Relative
  | _, repeated _ p => p.Relative
  | _, optional _ p => p.Relative
  | _, lookahead p => p.Relative
  | _, not p => p.Relative
  | _, commit diagnostic p => diagnostic.Relative ∧ p.Relative
  | _, named _ p => p.Relative

theorem Term.parser_local {refs : (i : ι) → Parser (τ i)} (hrefs : ∀ i, (refs i).Local)
    {t : Term τ α} (ht : t.Relative) : (t.parser refs).Local := by
  induction t with
  | satisfy condition => exact Parser.local_satisfy condition
  | literal text => exact Parser.local_literal text
  | pattern r => exact Parser.local_pattern r
  | atEnd => exact Parser.local_atEnd
  | always value => exact Parser.local_always value
  | never => exact Parser.local_never
  | fault f => exact Parser.local_fault f
  | and p q ihp ihq => exact (ihp ht.1).and (ihq ht.2)
  | sequence n ps ih =>
    apply Parser.Local.sequenceFrom
    intro p hp
    obtain ⟨i, rfl⟩ := List.mem_ofFn.mp hp
    exact ih i (ht i)
  | map f p ih => exact (ih ht).map f
  | mapErr f p ih => exact (ih ht.2).mapErr ht.1
  | filter condition p ih => exact (ih ht).filter condition
  | flatMap p f ihp ihf => exact (ihp ht.1).flatMap fun a => ihf a (ht.2 a)
  | or p q ihp ihq => exact (ihp ht.1).or (ihq ht.2)
  | oneOf n ps ih =>
    apply Parser.Local.oneOf
    intro p hp
    obtain ⟨i, rfl⟩ := List.mem_ofFn.mp hp
    exact ih i (ht i)
  | repeated bounds p ih => exact (ih ht).repeated bounds
  | optional default p ih => exact (ih ht).optional default
  | lookahead p ih => exact (ih ht).lookahead
  | not p ih => exact (ih ht).not
  | commit diagnostic p ih => exact (ih ht.2).commit ht.1
  | named name p ih => exact (ih ht).named name
  | ref i => exact hrefs i

/-- A fixed message knows of no offset. -/
theorem Term.relative_expected {p : Term τ α} {message : Bytes} (hp : p.Relative) :
    (p.expected message).Relative := by
  refine ⟨fun front input offset _ _ => ⟨rfl, ?_⟩, hp⟩
  intro error herror e he parseError hparse
  cases herror
  cases he
  cases hparse
  rfl

namespace Definitions

variable {defs : Definitions τ} (hdefs : ∀ i body, defs i = some body → body.Relative)
include hdefs

theorem refsAt_local (depth : Nat) (i : ι) : (defs.refsAt depth i).Local := by
  induction depth generalizing i with
  | zero => exact ⟨fun _ _ _ _ => ⟨nofun, nofun, nofun, fun _ _ => trivial, trivial⟩,
      fun _ _ _ _ _ => rfl⟩
  | succ depth ih =>
    simp only [refsAt]
    cases hbody : defs i with
    | none => exact Parser.local_fault _
    | some body =>
      dsimp only
      rw [parserAt_eq]
      exact Term.parser_local ih (hdefs i body hbody)

theorem parserAt_local {t : Term τ α} (ht : t.Relative) (depth : Nat) :
    (defs.parserAt depth t).Local := by
  rw [parserAt_eq]
  exact Term.parser_local (refsAt_local hdefs depth) ht

/-- With more in front, a run from the same byte comes to the same outcome, with all offsets larger
by the number of bytes; and it ends if and only if the run without them does. -/
theorem yields_withFront {t : Term τ α} (ht : t.Relative) (front : Array UInt8) (input : Input)
    {offset : Int} (hstart : 0 ≤ offset) (hend : offset ≤ input.size) :
    (∀ r, defs.Yields t input offset r →
      ∃ r', defs.Yields t (input.withFront front) (front.size + offset) r' ∧
        r'.outcome = r.outcome.moved front.size (input.withFront front)) ∧
    ∀ r', defs.Yields t (input.withFront front) (front.size + offset) r' →
      ∃ r, defs.Yields t input offset r ∧
        r'.outcome = r.outcome.moved front.size (input.withFront front) := by
  have hmoved := fun depth =>
    (parserAt_local hdefs ht depth).moved front input offset hstart hend
  constructor
  · intro r ⟨hr, depth, hrun⟩
    have houtcome := hmoved depth
    rw [hrun] at houtcome
    refine ⟨_, ⟨?_, depth, rfl⟩, houtcome⟩
    rw [houtcome]
    exact mt Outcome.moved_eq_halted.mp hr
  · intro r' ⟨hr', depth, hrun⟩
    have houtcome := hmoved depth
    rw [hrun] at houtcome
    refine ⟨_, ⟨?_, depth, rfl⟩, houtcome⟩
    rw [houtcome] at hr'
    exact mt Outcome.moved_eq_halted.mpr hr'

omit hdefs in
theorem digitLists_relative (i : Unit) (body : Term (fun _ : Unit => Nat) Nat)
    (h : digitLists i = some body) : body.Relative := by
  cases h
  have hitem : (Term.or (Term.digit.value 1) (Term.ref ()) :
      Term (fun _ : Unit => Nat) Nat).Relative := ⟨trivial, trivial⟩
  have hlist : (Term.sepBy0 (.or (Term.digit.value 1) (.ref ())) (Term.char ',') :
      Term (fun _ : Unit => Nat) (List Nat)).Relative := ⟨hitem, trivial, hitem⟩
  exact ⟨⟨trivial, hlist⟩, Term.relative_expected trivial⟩

omit hdefs in
/-- A bracket that is left open is missed two bytes later with two bytes in front. -/
theorem yields_withFront_digitLists :
    ∃ r e, digitLists.Yields (.ref ()) ((Input.ofBytes [] "[1,[2").withFront #[93, 93]) 2 r ∧
      r.outcome = .fatal e ∧ e.message = "expected ']'" ∧ e.offset = 7 := by
  let r := digitLists.parserAt 3 (.ref ()) (Input.ofBytes [] "[1,[2") 0
  obtain ⟨e, he, hmessage, hoffset⟩ :
      ∃ e, r.outcome = .fatal e ∧ e.message = "expected ']'" ∧ e.offset = 5 :=
    ⟨_, rfl, rfl, rfl⟩
  have h : digitLists.Yields (.ref ()) (Input.ofBytes [] "[1,[2") 0 r :=
    ⟨by simp [he], 3, rfl⟩
  obtain ⟨r', hr', houtcome⟩ := (yields_withFront digitLists_relative (t := .ref ()) trivial
    #[93, 93] (Input.ofBytes [] "[1,[2") (Int.le_refl 0) (by decide)).1 r h
  rw [he] at houtcome
  refine ⟨r', _, hr', houtcome, hmessage, ?_⟩
  dsimp only
  rw [hoffset]
  rfl

end Definitions
end Terms
end Backtrack
