import Backtrack.Proofs.Calc.Soundness

/-!
# The grammar of expressions reads all expressions

An expression is read to its end, with the blanks behind it, whatever follows, as long as that goes
on neither with a digit or point nor with an operator. The chains are greedy, so what follows
decides where they stop: an operator of weaker binding ends a product and is left to the sum around
it.

A factor refers to expressions and factors behind a token of its own, an expression to factors where
it begins. Two references for each byte are therefore enough, and one more for an expression.
-/

namespace Backtrack.Calc

open Numerals Text

variable {rd : Reader Rule.type} {s r t u : Bytes} {L : Float → Bytes → Prop} {x y : Float}
  {n : Nat}

def continuesProduct (b : UInt8) : Bool :=
  continuesMantissa b || b = Bytes.ascii '*' || b = Bytes.ascii '/'

def continuesExpression (b : UInt8) : Bool :=
  continuesProduct b || b = Bytes.ascii '+' || b = Bytes.ascii '-'

/-- A term reads every text of a language up to some length, wherever it stands, with the blanks
behind it. What follows the blanks must not be of some kind. -/
def Complete (rd : Reader Rule.type) (p : Grammar Float) (L : Float → Bytes → Prop)
    (kind : UInt8 → Bool) (n : Nat) : Prop :=
  ∀ ⦃x t⦄, L x t → t.length ≤ n → ∀ ⦃s r⦄, s <:+ rd.bytes → HeadNot kind (skip r) →
    skip s = skip (t ++ r) → rd.Reads p s x (skip r)

structure Separates (Op : Char → (Float → Float → Float) → Prop) (operand chain : UInt8 → Bool) :
    Prop where
  narrower : ∀ b, chain b = false → operand b = false
  outside : ∀ c f, Op c f → operand (Bytes.ascii c) = false
  inside : ∀ c f, Op c f → chain (Bytes.ascii c) = true

theorem separates_multiplicative : Separates Multiplicative continuesMantissa continuesProduct where
  narrower b hb := by
    simp only [continuesProduct, Bool.or_eq_false_iff] at hb
    exact hb.1.1
  outside := by rintro _ _ (_ | _) <;> decide
  inside := by rintro _ _ (_ | _) <;> decide

theorem separates_additive : Separates Additive continuesProduct continuesExpression where
  narrower b hb := by
    simp only [continuesExpression, Bool.or_eq_false_iff] at hb
    exact hb.1.1
  outside := by rintro _ _ (_ | _) <;> decide
  inside := by rintro _ _ (_ | _) <;> decide

section Chains

variable {text : Bytes} {Op : Char → (Float → Float → Float) → Prop} {operand : Grammar Float}
  {inner outer : UInt8 → Bool} (hops : Operators text Op)
include hops

theorem reads_operator {c : Char} {f : Float → Float → Float} (hop : Op c f)
    (ht : Spaced [Bytes.ascii c] t) (hs : s <:+ rd.bytes) (hskip : skip s = skip (t ++ r)) :
    rd.Reads (operator text) s c (skip r) := by
  apply Reader.reads_trim_spaced ht (hops.notSpace c f hop) hs hskip
  intro behind _ hsuffix
  obtain ⟨_, _, n, hread, hrest⟩ := Reader.reads_satisfy_iff.mp
    ((Reader.reads_char (hops.ascii c f hop)).mpr ⟨hsuffix, rfl, rfl⟩)
  exact Reader.reads_satisfy_iff.mpr ⟨hsuffix, (hops.listed c).mpr ⟨f, hop⟩, n, hread, hrest⟩

theorem rejects_operator (hsep : Separates Op inner outer) (hs : s <:+ rd.bytes)
    (h : HeadNot outer (skip s)) : rd.Rejects (operator text) s := by
  apply Reader.rejects_trim hs
  apply Reader.rejects_satisfy_iff.mpr
  refine ⟨(skip_suffix s).trans hs, fun c n hread => ?_⟩
  apply Bool.eq_false_iff.mpr
  intro hlisted
  obtain ⟨f, hop⟩ := (hops.listed c).mp hlisted
  have houter := hsep.inside c f hop
  rw [Utf8.cons_of_decode? hread (hops.ascii c f hop), headNot_cons, houter] at h
  cases h

/-- The operands of a chain are read one after another. What is applied behind the chain is applied
to the value of the chain. -/
theorem reads_chained (hp : Complete rd operand L inner n) (hsep : Separates Op inner outer)
    (h : Chained Op L x t) (hn : t.length ≤ n) (hs : s <:+ rd.bytes)
    (hr : HeadNot inner (skip r)) (hskip : skip s = skip (t ++ r)) {as : List (Char × Float)}
    (hrest : rd.Chain ((operator text).and operand) (skip r) as u) :
    ∃ first m as', rd.Reads operand s first m ∧
      rd.Chain ((operator text).and operand) m as' u ∧
      as'.foldl applyOperator first = as.foldl applyOperator x := by
  -- A chain grows on the right, where the repetition of the grammar goes on, so the operators
  -- behind what was read of the chain so far are passed along as a chain of matches.
  induction h generalizing r as with
  | @one x t hx => exact ⟨x, skip r, as, hp hx hn hs hr hskip, hrest, rfl⟩
  | @more x y t token v c f _ hop htoken hy ih =>
    simp only [List.length_append] at hn
    simp only [List.append_assoc] at hskip
    have hspace := hops.notSpace c f hop
    have hfollow : HeadNot inner (skip (token ++ (v ++ r))) :=
      headNot_spaced htoken hspace (hsep.outside c f hop) _
    have hs' := (skip_suffix s).trans hs
    have hm : skip (token ++ (v ++ r)) <:+ rd.bytes :=
      (skip_suffix_append t _).trans (hskip ▸ hs')
    have hoperator := reads_operator hops hop htoken hm (skip_skip _)
    have hoperand := hp hy (by omega) hoperator.finish hr (skip_skip _)
    have hne : skip r ≠ skip (token ++ (v ++ r)) := by
      obtain ⟨behind, _, heq⟩ := skip_spaced htoken hspace (v ++ r)
      have hle := (skip_suffix r).length_le
      intro hlength
      have hlength := congrArg List.length (hlength.trans heq)
      simp only [List.length_append, List.length_singleton] at hlength
      omega
    have hstep : rd.Reads ((operator text).and operand) (skip (token ++ (v ++ r))) (c, y)
        (skip r) := Reader.reads_and.mpr ⟨_, hoperator, hoperand⟩
    obtain ⟨first, m, as', hfirst, hchain, hvalue⟩ :=
      ih (by omega) hfollow hskip (.next hstep hne hrest)
    refine ⟨first, m, as', hfirst, hchain, hvalue.trans ?_⟩
    rw [List.foldl_cons, hops.applied c f x y hop]

theorem complete_chain (hp : Complete rd operand L inner n) (hsep : Separates Op inner outer) :
    Complete rd (chain operand text) (Chained Op L) outer n := by
  intro x t h hn s r hs hr hskip
  have hs' := (skip_suffix s).trans hs
  have hstop : rd.Rejects (operator text) (skip r) := by
    apply rejects_operator hops hsep ((skip_suffix_append t r).trans (hskip ▸ hs'))
    rwa [skip_skip]
  obtain ⟨first, m, as, hfirst, hchain, hvalue⟩ := reads_chained hops hp hsep h hn hs
    (headNot_mono hr hsep.narrower) hskip (.stop (.inl (Reader.rejects_and hstop)))
  have hmany := Reader.reads_many0.mpr ⟨hfirst.finish, hchain⟩
  exact Reader.reads_map.mpr ⟨(first, as), Reader.reads_and.mpr ⟨m, hfirst, hmany⟩, hvalue⟩

end Chains

theorem reads_word {b : UInt8} {word : Bytes} (ht : Spaced (b :: word) t)
    (hb : isSpaceByte b = false) (hs : s <:+ rd.bytes) (hskip : skip s = skip (t ++ r)) :
    rd.Reads (Term.literal (b :: word)).trim s (b :: word) (skip r) :=
  Reader.reads_trim_spaced ht hb hs hskip fun _ _ h => Reader.reads_literal.mpr ⟨h, rfl, rfl⟩

theorem Call.skip_eq {b : UInt8} {name : Bytes} {v : Float × Float} (h : Call (b :: name) L v t)
    (hb : isSpaceByte b = false) (r : Bytes) : ∃ rest, skip (t ++ r) = b :: rest := by
  cases h with
  | mk hword =>
    obtain ⟨behind, _, heq⟩ := skip_spaced hword hb _
    rw [List.append_assoc, heq]
    exact ⟨_, rfl⟩

theorem complete_function (hp : Complete rd (.ref Rule.expression) L continuesExpression n)
    {b : UInt8} {name : Bytes} (hb : isSpaceByte b = false) (f : Float → Float → Float)
    (h : Call (b :: name) L (x, y) t) (hn : t.length ≤ n + 1) (hs : s <:+ rd.bytes)
    (hskip : skip s = skip (t ++ r)) :
    rd.Reads (function (b :: name) f) s (f x y) (skip r) := by
  cases h with
  | @mk x y word left t comma u right hword hleft hx hcomma hy hright =>
    have hpos := hword.length_pos
    simp only [List.length_append] at hn
    simp only [List.append_assoc] at hskip
    have hname := reads_word hword hb hs hskip
    -- Neither the comma nor the closing bracket goes on with the expression in front of it.
    have hfirstEnds : HeadNot continuesExpression (skip (comma ++ (u ++ (right ++ r)))) :=
      headNot_spaced hcomma (by decide) (by decide) _
    have hsecondEnds : HeadNot continuesExpression (skip (right ++ r)) :=
      headNot_spaced hright (by decide) (by decide) _
    have hopen := Reader.reads_trim_char_spaced (by decide) (by decide) hleft hname.finish
      (skip_skip _)
    have hfirst := hp hx (by omega) hopen.finish hfirstEnds (skip_skip _)
    have hmark := Reader.reads_trim_char_spaced (by decide) (by decide) hcomma hfirst.finish
      (skip_skip _)
    have hsecond := hp hy (by omega) hmark.finish hsecondEnds (skip_skip _)
    have hclose := Reader.reads_trim_char_spaced (by decide) (by decide) hright hsecond.finish
      (skip_skip _)
    apply Reader.reads_named.mpr (Reader.reads_map.mpr ⟨(x, y), ?_, rfl⟩)
    apply Reader.reads_skipRight.mpr ⟨_, _, ?_, (Reader.reads_expect _).mpr hclose⟩
    apply Reader.reads_skipLeft.mpr
      ⟨(b :: name, '('), _, Reader.reads_and.mpr ⟨_, hname, hopen⟩, ?_⟩
    apply Reader.reads_and.mpr ⟨_, (Reader.reads_expect _).mpr hfirst, ?_⟩
    apply Reader.reads_skipLeft.mpr ⟨_, _, (Reader.reads_expect _).mpr hmark, ?_⟩
    exact (Reader.reads_expect _).mpr hsecond

theorem reads_number {token : Bytes} (h : NumberToken x token) (ht : Spaced token t)
    (hs : s <:+ rd.bytes) (hr : HeadNot continuesMantissa (skip r))
    (hskip : skip s = skip (t ++ r)) : rd.Reads number.trim s x (skip r) := by
  obtain ⟨f, hmantissa, hf, rfl⟩ := h
  obtain ⟨b, rest, rfl, hb⟩ := hmantissa.head
  have hfirst : continuesMantissa b = true := by simpa [continuesMantissa] using hb
  apply Reader.reads_trim_spaced ht (visible_continuesMantissa.not_space hfirst) hs hskip
  intro behind hbehind hsuffix
  have hfollow : HeadNot continuesMantissa (behind ++ r) :=
    headNot_blanks visible_continuesMantissa hbehind
      (headNot_of_skip visible_continuesMantissa hr)
  have htries : numberPattern.tries rd.input.text
      (placeOf rd.input.text (b :: rest ++ (behind ++ r))) (b :: rest ++ (behind ++ r)) some =
      some (behind ++ r) := by
    rw [numberPattern_eq, Regex.tries_anchor hsuffix]
    have hdigit := headNot_mono hfollow fun b hb => (Bool.or_eq_false_iff.mp hb).1
    exact tries_mantissa_all hsuffix hmantissa hdigit (fun _ => not_startsPart hfollow) rfl
  exact Reader.reads_mapErr.mpr ⟨b :: rest,
    (Reader.reads_pattern rfl).mpr ⟨hsuffix, rfl, htries⟩, readNumber_eq_ok.mpr ⟨f, hf, rfl⟩⟩

theorem reads_brackets (hp : Complete rd (.ref Rule.expression) L continuesExpression n)
    {left right : Bytes} (hleft : Spaced [Bytes.ascii '('] left) (h : L x t)
    (hright : Spaced [Bytes.ascii ')'] right) (hn : (left ++ (t ++ right)).length ≤ n + 1)
    (hs : s <:+ rd.bytes) (hskip : skip s = skip (left ++ (t ++ (right ++ r)))) :
    rd.Reads brackets s x (skip r) := by
  have hpos := hleft.length_pos
  simp only [List.length_append] at hn
  have hends : HeadNot continuesExpression (skip (right ++ r)) :=
    headNot_spaced hright (by decide) (by decide) r
  have hopen := Reader.reads_trim_char_spaced (by decide) (by decide) hleft hs hskip
  have hinside := hp h (by omega) hopen.finish hends (skip_skip _)
  have hclose := Reader.reads_trim_char_spaced (by decide) (by decide) hright hinside.finish
    (skip_skip _)
  apply Reader.reads_skipRight.mpr ⟨_, _, ?_, (Reader.reads_expect _).mpr hclose⟩
  exact Reader.reads_skipLeft.mpr ⟨_, _, hopen, (Reader.reads_expect _).mpr hinside⟩

theorem reads_negation (hp : Complete rd (.ref Rule.factor) L continuesMantissa n)
    {minus : Bytes} (hminus : Spaced [Bytes.ascii '-'] minus) (h : L x t)
    (hn : (minus ++ t).length ≤ n + 1) (hs : s <:+ rd.bytes)
    (hr : HeadNot continuesMantissa (skip r)) (hskip : skip s = skip (minus ++ (t ++ r))) :
    rd.Reads negation s (-x) (skip r) := by
  have hpos := hminus.length_pos
  rw [List.length_append] at hn
  have hsign := Reader.reads_trim_char_spaced (by decide) (by decide) hminus hs hskip
  have hoperand := hp h (by omega) hsign.finish hr (skip_skip _)
  exact Reader.reads_map.mpr ⟨x, Reader.reads_skipLeft.mpr ⟨_, _, hsign, hoperand⟩, rfl⟩

section Rejections

variable {b : UInt8} {rest : Bytes} (hs : s <:+ rd.bytes) (hskip : skip s = b :: rest)
include hs hskip

theorem rejects_number (hb : continuesMantissa b = false) : rd.Rejects number.trim s := by
  have hsuffix := (skip_suffix s).trans hs
  apply Reader.rejects_trim hs (Reader.rejects_mapErr (Reader.rejects_pattern rfl hsuffix ?_))
  rw [numberPattern_eq, Regex.tries_anchor hsuffix]
  by_contra hsome
  obtain ⟨u, hu⟩ := Option.ne_none_iff_exists'.mp hsome
  obtain ⟨mantissa, v, hmantissa, heq, _⟩ := of_tries_mantissa hsuffix hu
  obtain ⟨a, mantissa, rfl, ha⟩ := hmantissa.head
  rw [hskip] at heq
  obtain ⟨rfl, _⟩ := List.cons.inj heq
  have hfirst : continuesMantissa b = true := by simpa [continuesMantissa] using ha
  rw [hb] at hfirst
  cases hfirst

theorem rejects_token {c : Char} (hc : c.toNat < 128) (hb : b ≠ Bytes.ascii c) :
    rd.Rejects (token c) s := by
  apply Reader.rejects_trim_char hc hs
  rw [hskip]
  exact headNot_cons.mpr (decide_eq_false hb)

theorem rejects_word {a : UInt8} {word : Bytes} (hb : b ≠ a) :
    rd.Rejects (Term.literal (a :: word)).trim s := by
  apply Reader.rejects_trim hs (Reader.rejects_literal ((skip_suffix s).trans hs) ?_)
  rw [hskip]
  rintro ⟨u, heq⟩
  exact hb (List.cons.inj heq).1.symm

theorem rejects_function {a : UInt8} {name : Bytes} (f : Float → Float → Float) (hb : b ≠ a) :
    rd.Rejects (function (a :: name) f) s :=
  Reader.rejects_named (Reader.rejects_map (Reader.rejects_skipRight
    (Reader.rejects_skipLeft (Reader.rejects_and (rejects_word hs hskip hb)))))

theorem rejects_brackets (hb : b ≠ Bytes.ascii '(') :
    rd.Rejects brackets s :=
  Reader.rejects_skipRight (Reader.rejects_skipLeft (rejects_token hs hskip (by decide) hb))

theorem rejects_negation (hb : b ≠ Bytes.ascii '-') :
    rd.Rejects negation s :=
  Reader.rejects_map (Reader.rejects_skipLeft (rejects_token hs hskip (by decide) hb))

theorem reads_named_alternative (hnumber : continuesMantissa b = false)
    (hopening : b ≠ Bytes.ascii '(') (hminus : b ≠ Bytes.ascii '-')
    (h : rd.Reads (.choice (alternatives.drop 3)) s x u) :
    rd.Reads (.choice alternatives) s x u := by
  apply Reader.reads_choice_tail (rejects_number hs hskip hnumber)
  apply Reader.reads_choice_tail (rejects_brackets hs hskip hopening)
  exact Reader.reads_choice_tail (rejects_negation hs hskip hminus) h

end Rejections

theorem complete_factor_of_refs
    (hexpression : Complete rd (.ref Rule.expression) Expression continuesExpression n)
    (hfactor : Complete rd (.ref Rule.factor) Factor continuesMantissa n) :
    Complete rd factor Factor continuesMantissa (n + 1) := by
  intro x t h hn s r hs hr hskip
  rw [factor_eq]
  cases h with
  | @number token t f hmantissa hf ht =>
    have hread := reads_number ⟨f, hmantissa, hf, rfl⟩ ht hs hr hskip
    exact Reader.reads_choice_head hread
  | @brackets x left t right hleft h hright =>
    simp only [List.append_assoc] at hskip
    obtain ⟨behind, _, heq⟩ := skip_spaced hleft (by decide) (t ++ (right ++ r))
    apply Reader.reads_choice_tail (rejects_number hs (hskip.trans heq) (by decide))
    exact Reader.reads_choice_head (reads_brackets hexpression hleft h hright hn hs hskip)
  | @negation x minus t hminus h =>
    simp only [List.append_assoc] at hskip
    obtain ⟨behind, _, heq⟩ := skip_spaced hminus (by decide) (t ++ r)
    apply Reader.reads_choice_tail (rejects_number hs (hskip.trans heq) (by decide))
    apply Reader.reads_choice_tail (rejects_brackets hs (hskip.trans heq) (by decide))
    exact Reader.reads_choice_head (reads_negation hfactor hminus h hn hs hr hskip)
  | pi ht =>
    obtain ⟨behind, _, heq⟩ := skip_spaced ht (by decide) r
    apply reads_named_alternative hs (hskip.trans heq) (by decide) (by decide) (by decide)
    apply Reader.reads_choice_head
    exact Reader.reads_value.mpr ⟨⟨_, reads_word ht (by decide) hs hskip⟩, rfl⟩
  | power h =>
    obtain ⟨rest, heq⟩ := h.skip_eq (by decide) r
    have hhead := hskip.trans heq
    apply reads_named_alternative hs hhead (by decide) (by decide) (by decide)
    apply Reader.reads_choice_tail (Reader.rejects_map (rejects_word hs hhead (by decide)))
    apply Reader.reads_choice_head
    exact complete_function hexpression (by decide) _ h hn hs hskip
  | logarithm h =>
    obtain ⟨rest, heq⟩ := h.skip_eq (by decide) r
    have hhead := hskip.trans heq
    apply reads_named_alternative hs hhead (by decide) (by decide) (by decide)
    apply Reader.reads_choice_tail (Reader.rejects_map (rejects_word hs hhead (by decide)))
    apply Reader.reads_choice_tail (rejects_function hs hhead _ (by decide))
    apply Reader.reads_choice_head
    exact complete_function hexpression (by decide) _ h hn hs hskip

theorem complete_expression_of_ref
    (h : Complete rd (.ref Rule.factor) Factor continuesMantissa n) :
    Complete rd expression Expression continuesExpression n := by
  have hterm : Complete rd term Product continuesProduct n :=
    fun _ _ ht hn _ _ hs hr hskip => Reader.reads_named.mpr
      (complete_chain multiplicative_operators h separates_multiplicative ht hn hs hr hskip)
  intro x t ht hn s r hs hr hskip
  exact Reader.reads_named.mpr
    (complete_chain additive_operators hterm separates_additive ht hn hs hr hskip)

theorem Factor.length_pos (h : Factor x t) : 0 < t.length := by
  cases h with
  | number hmantissa _ ht =>
    obtain ⟨b, rest, rfl, _⟩ := hmantissa.head
    exact ht.length_pos
  | brackets hleft =>
    have hpos := hleft.length_pos
    rw [List.length_append]
    omega
  | negation hminus =>
    have hpos := hminus.length_pos
    rw [List.length_append]
    omega
  | pi ht => exact ht.length_pos
  | power h | logarithm h =>
    obtain ⟨hword⟩ := h
    have hpos := hword.length_pos
    rw [List.length_append]
    omega

theorem complete_rules (input : Input) (depth : Nat) :
    (∀ n, 2 * n ≤ depth →
      Complete (definitions.reader depth input) factor Factor continuesMantissa n) ∧
    (∀ n, 2 * n < depth →
      Complete (definitions.reader depth input) expression Expression continuesExpression n) := by
  have hempty : ∀ rd, Complete rd factor Factor continuesMantissa 0 := by
    intro rd x t h hn
    have hpos := h.length_pos
    omega
  induction depth with
  | zero =>
    constructor
    · intro n hn
      obtain rfl : n = 0 := by omega
      exact hempty _
    · intro n hn
      omega
  | succ depth ih =>
    have hfactor : ∀ n, 2 * n ≤ depth →
        Complete (definitions.reader (depth + 1) input) (.ref Rule.factor) Factor
          continuesMantissa n :=
      fun n hn _ _ h hlength _ _ hs hr hskip =>
        (Definitions.reads_ref rfl).mpr (ih.1 n hn h hlength hs hr hskip)
    constructor
    · intro n hn
      cases n with
      | zero => exact hempty _
      | succ n =>
        apply complete_factor_of_refs ?_ (hfactor n (by omega))
        intro _ _ h hlength _ _ hs hr hskip
        exact (Definitions.reads_ref rfl).mpr (ih.2 n (by omega) h hlength hs hr hskip)
    · intro n hn
      exact complete_expression_of_ref (hfactor n (by omega))

end Backtrack.Calc
