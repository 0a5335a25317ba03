import Backtrack.Proofs.Calc.Language
import Backtrack.Proofs.Parser.Tokens
import Backtrack.Proofs.Regex.Numerals

/-!
# What the grammar of expressions reads is an expression

Every match consumes a text of the language and has the value of that text. The operands of a chain
are applied while they are read, so the value so far is that of what was read so far.
-/

namespace Backtrack.Calc

open Numerals Text

variable {rd : Reader Rule.type} {s t u m : Bytes} {L : Float → Bytes → Prop}

def NumberToken (x : Float) (t : Bytes) : Prop :=
  ∃ f, Mantissa t ∧ Decimal.readFloat t = .ok f ∧ f.toFloat = x

theorem numberPattern_eq : numberPattern =
    .seq (.check .beginText) (.alt fractionPattern digitsPattern) := rfl

theorem readNumber_eq_ok {x : Float} :
    readNumber t = .ok x ↔ ∃ f, Decimal.readFloat t = .ok f ∧ f.toFloat = x := by
  unfold readNumber
  constructor
  · intro h
    split at h
    · rename_i f hf
      cases h
      exact ⟨f, hf, rfl⟩
    · cases h
  · rintro ⟨f, hf, rfl⟩
    rw [hf]

def number : Grammar Float := (Term.pattern numberPattern).mapErr readNumber

theorem sound_number : rd.Sound number NumberToken := by
  intro s x u h
  obtain ⟨t, ht, hread⟩ := Reader.reads_mapErr.mp h
  obtain ⟨hs, rfl, htries⟩ := (Reader.reads_pattern rfl).mp ht
  rw [numberPattern_eq, Regex.tries_anchor hs] at htries
  obtain ⟨mantissa, u', hmantissa, heq, hu⟩ := of_tries_mantissa hs htries
  obtain rfl := Option.some.inj hu
  obtain rfl := List.append_cancel_right heq
  obtain ⟨f, hf, rfl⟩ := readNumber_eq_ok.mp hread
  exact ⟨t, rfl, f, hmantissa, hf, rfl⟩

structure Operators (text : Bytes) (Op : Char → (Float → Float → Float) → Prop) : Prop where
  listed : ∀ c, (Utf8.chars text).contains c = true ↔ ∃ f, Op c f
  ascii : ∀ c f, Op c f → c.toNat < 128
  notSpace : ∀ c f, Op c f → isSpaceByte (Bytes.ascii c) = false
  applied : ∀ c f x y, Op c f → applyOperator x (c, y) = f x y

theorem additive_operators : Operators "+-" Additive where
  listed c := by
    have hchars : Utf8.chars (Bytes.ofString "+-") = ['+', '-'] := by decide
    rw [hchars, List.contains_iff_mem, List.mem_cons, List.mem_singleton]
    constructor
    · rintro (rfl | rfl)
      · exact ⟨_, .plus⟩
      · exact ⟨_, .minus⟩
    · rintro ⟨_, _ | _⟩
      · exact .inl rfl
      · exact .inr rfl
  ascii := by rintro _ _ (_ | _) <;> decide
  notSpace := by rintro _ _ (_ | _) <;> decide
  applied := by rintro _ _ _ _ (_ | _) <;> rfl

theorem multiplicative_operators : Operators "*/" Multiplicative where
  listed c := by
    have hchars : Utf8.chars (Bytes.ofString "*/") = ['*', '/'] := by decide
    rw [hchars, List.contains_iff_mem, List.mem_cons, List.mem_singleton]
    constructor
    · rintro (rfl | rfl)
      · exact ⟨_, .times⟩
      · exact ⟨_, .divided⟩
    · rintro ⟨_, _ | _⟩
      · exact .inl rfl
      · exact .inr rfl
  ascii := by rintro _ _ (_ | _) <;> decide
  notSpace := by rintro _ _ (_ | _) <;> decide
  applied := by rintro _ _ _ _ (_ | _) <;> rfl

section Chains

variable {text : Bytes} {Op : Char → (Float → Float → Float) → Prop} {operand : Grammar Float}

def operator (text : Bytes) : Grammar Char := (Term.charIn text).trim

theorem chain_eq : chain operand text =
    (operand.and ((operator text).and operand).many0).map
      fun v => v.2.foldl applyOperator v.1 := rfl

variable (hops : Operators text Op)
include hops

theorem sound_operator :
    rd.Sound (operator text) fun c t => ∃ f, Op c f ∧ Spaced [Bytes.ascii c] t := by
  intro s c u h
  obtain ⟨hs, m, hm, rfl⟩ := Reader.reads_trim.mp h
  obtain ⟨_, hc, n, hread, rfl⟩ := Reader.reads_satisfy_iff.mp hm
  obtain ⟨f, hf⟩ := (hops.listed c).mp hc
  have hskip : skip s = [Bytes.ascii c] ++ (skip s).drop n :=
    Utf8.cons_of_decode? hread (hops.ascii c f hf)
  obtain ⟨t, ht, hspaced⟩ := exists_spaced hskip
  exact ⟨t, ht, f, hf, hspaced⟩

/-- Every further operator and operand extend what was read so far on the right. -/
theorem chained_of_chain (hL : rd.Sound operand L) {x : Float} {as : List (Char × Float)}
    (h : rd.Chain ((operator text).and operand) m as u) (hx : Chained Op L x t) :
    ∃ t', t ++ m = t' ++ u ∧ Chained Op L (as.foldl applyOperator x) t' := by
  induction h generalizing t x with
  | stop => exact ⟨t, rfl, hx⟩
  | @next s m u a as h _ _ ih =>
    obtain ⟨c, y⟩ := a
    obtain ⟨w, hoperator, hy⟩ := Reader.reads_and.mp h
    obtain ⟨o, rfl, f, hop, hspaced⟩ := sound_operator hops hoperator
    obtain ⟨v, rfl, hv⟩ := hL hy
    obtain ⟨t', heq, ht'⟩ := ih (.more hx hop hspaced hv)
    refine ⟨t', ?_, ?_⟩
    · rw [← heq]
      simp
    · rw [List.foldl_cons, hops.applied c f x y hop]
      exact ht'

theorem sound_chain (hL : rd.Sound operand L) : rd.Sound (chain operand text) (Chained Op L) := by
  intro s x u h
  obtain ⟨⟨first, as⟩, hpair, rfl⟩ := Reader.reads_map.mp h
  obtain ⟨m, hm, hmany⟩ := Reader.reads_and.mp hpair
  obtain ⟨t, rfl, ht⟩ := hL hm
  exact chained_of_chain hops hL (Reader.reads_many0.mp hmany).2 (.one ht)

end Chains

theorem sound_function (hL : rd.Sound (.ref Rule.expression) L) (name : Bytes)
    (f : Float → Float → Float) :
    rd.Sound (function name f) fun z t => ∃ x y, Call name L (x, y) t ∧ f x y = z := by
  intro s z u h
  obtain ⟨⟨x, y⟩, hcall, rfl⟩ := Reader.reads_map.mp (Reader.reads_named.mp h)
  obtain ⟨_, m, hm, hclose⟩ := Reader.reads_skipRight.mp hcall
  obtain ⟨_, w, hopening, hinside⟩ := Reader.reads_skipLeft.mp hm
  obtain ⟨w', hliteral, hopen⟩ := Reader.reads_and.mp hopening
  obtain ⟨v, hfirst, hrest⟩ := Reader.reads_and.mp hinside
  obtain ⟨_, v', hmark, hsecond⟩ := Reader.reads_skipLeft.mp hrest
  obtain ⟨word, rfl, hword⟩ := Reader.sound_trim_literal name hliteral
  obtain ⟨left, rfl, hleft⟩ := Reader.sound_trim_char (by decide) hopen
  obtain ⟨t, rfl, hx⟩ := hL (Reader.reads_commit.mp hfirst)
  obtain ⟨comma, rfl, hcomma⟩ := Reader.sound_trim_char (by decide) (Reader.reads_commit.mp hmark)
  obtain ⟨t', rfl, hy⟩ := hL (Reader.reads_commit.mp hsecond)
  obtain ⟨right, rfl, hright⟩ := Reader.sound_trim_char (by decide) (Reader.reads_commit.mp hclose)
  refine ⟨_, ?_, x, y, .mk hword hleft hx hcomma hy hright, rfl⟩
  simp only [List.append_assoc]

def brackets : Grammar Float := argument.surround (token '(') ((token ')').expect "\")\"")

def negation : Grammar Float :=
  ((token '-').skipLeft (.ref Rule.factor)).map fun (x : Float) => -x

def alternatives : List (Grammar Float) := [
  number.trim,
  brackets,
  negation,
  (Term.literal "PI").trim.value pi,
  function "pow" Calc.power,
  function "log" fun x base => Calc.logarithm x / Calc.logarithm base]

theorem factor_eq : factor = .choice alternatives := rfl

theorem sound_factor_of_refs (hexpression : rd.Sound (.ref Rule.expression) Expression)
    (hfactor : rd.Sound (.ref Rule.factor) Factor) : rd.Sound factor Factor := by
  intro s x u h
  obtain ⟨p, hp, hread⟩ := Reader.exists_of_reads_choice h
  simp only [List.mem_cons, List.not_mem_nil, or_false] at hp
  rcases hp with rfl | rfl | rfl | rfl | rfl | rfl
  · obtain ⟨_, m, hm, rfl⟩ := Reader.reads_trim.mp hread
    obtain ⟨token, hskip, f, hmantissa, hf, rfl⟩ := sound_number hm
    obtain ⟨t, rfl, ht⟩ := exists_spaced hskip
    exact ⟨t, rfl, .number hmantissa hf ht⟩
  · obtain ⟨_, m, hm, hclose⟩ := Reader.reads_skipRight.mp hread
    obtain ⟨_, w, hopen, hinside⟩ := Reader.reads_skipLeft.mp hm
    obtain ⟨left, rfl, hleft⟩ := Reader.sound_trim_char (by decide) hopen
    obtain ⟨t, rfl, hx⟩ := hexpression (Reader.reads_commit.mp hinside)
    obtain ⟨right, rfl, hright⟩ :=
      Reader.sound_trim_char (by decide) (Reader.reads_commit.mp hclose)
    exact ⟨left ++ (t ++ right), by simp, .brackets hleft hx hright⟩
  · obtain ⟨y, hnegated, rfl⟩ := Reader.reads_map.mp hread
    obtain ⟨_, m, hsign, hoperand⟩ := Reader.reads_skipLeft.mp hnegated
    obtain ⟨minus, rfl, hminus⟩ := Reader.sound_trim_char (by decide) hsign
    obtain ⟨t, rfl, hy⟩ := hfactor hoperand
    exact ⟨minus ++ t, (List.append_assoc _ _ _).symm, .negation hminus hy⟩
  · obtain ⟨⟨_, hword⟩, rfl⟩ := Reader.reads_value.mp hread
    obtain ⟨t, rfl, ht⟩ := Reader.sound_trim_literal _ hword
    exact ⟨t, rfl, .pi ht⟩
  · obtain ⟨t, rfl, x, y, hcall, rfl⟩ := sound_function hexpression _ _ hread
    exact ⟨t, rfl, .power hcall⟩
  · obtain ⟨t, rfl, x, base, hcall, rfl⟩ := sound_function hexpression _ _ hread
    exact ⟨t, rfl, .logarithm hcall⟩

theorem sound_expression_of_ref (h : rd.Sound (.ref Rule.factor) Factor) :
    rd.Sound expression Expression := by
  intro s x u hread
  apply sound_chain additive_operators ?_ (Reader.reads_named.mp hread)
  intro s y u hterm
  exact sound_chain multiplicative_operators h (Reader.reads_named.mp hterm)

theorem sound_rules (input : Input) (depth : Nat) :
    (definitions.reader depth input).Sound factor Factor ∧
      (definitions.reader depth input).Sound expression Expression := by
  induction depth with
  | zero =>
    constructor
    · exact sound_factor_of_refs (fun _ _ _ h => absurd h Definitions.not_reads_ref)
        fun _ _ _ h => absurd h Definitions.not_reads_ref
    · exact sound_expression_of_ref fun _ _ _ h => absurd h Definitions.not_reads_ref
  | succ depth ih =>
    have hfactor : (definitions.reader (depth + 1) input).Sound (.ref Rule.factor) Factor :=
      fun _ _ _ h => ih.1 ((Definitions.reads_ref rfl).mp h)
    constructor
    · exact sound_factor_of_refs (fun _ _ _ h => ih.2 ((Definitions.reads_ref rfl).mp h)) hfactor
    · exact sound_expression_of_ref hfactor

end Backtrack.Calc
