import Backtrack.Proofs.Calc.Completeness
import Backtrack.Proofs.Parser.Settling

/-!
# What expressions evaluate to

Every run of the grammar comes to something, since references are nested at most as deep as a text
is long, up to the factor of two. With soundness and completeness this says of every text whether it
is evaluated, and to what; of the other texts it says that an error of the grammar is reported.

This module does NOT say what the messages of these errors are.
-/

namespace Backtrack.Calc

open Text

variable {rd : Reader Rule.type} {s : Bytes}

theorem settles_token (c : Char) (hs : s <:+ rd.bytes) : rd.Settles (token c) s :=
  Reader.settles_trim hs (Reader.settles_satisfy _)

theorem settles_chain {operand : Grammar Float} (text : Bytes) (hs : s <:+ rd.bytes)
    (h : ∀ m, m <:+ s → rd.Settles operand m) : rd.Settles (chain operand text) s := by
  rw [chain_eq]
  apply Reader.settles_map
  apply Reader.settles_and hs (h s List.suffix_rfl)
  intro _ m hm
  apply Reader.settles_many0 hm.finish
  intro v hv
  have hv' := hv.trans hm.rest
  apply Reader.settles_and (hv'.trans hs)
  · exact Reader.settles_trim (hv'.trans hs) (Reader.settles_satisfy _)
  · exact fun _ w hw => h w (hw.rest.trans hv')

section Factors

variable (hs : s <:+ rd.bytes)
  (h : ∀ m, m <:+ s → m.length < s.length → rd.Settles (.ref Rule.expression) m)
include hs h

theorem settles_function (name : Bytes) (f : Float → Float → Float) :
    rd.Settles (function name f) s := by
  apply Reader.settles_named
  apply Reader.settles_map
  apply Reader.settles_skipRight hs ?_ fun _ m hm =>
    Reader.settles_expect _ (settles_token ')' hm.finish)
  apply Reader.settles_skipLeft hs
  · apply Reader.settles_and hs (Reader.settles_trim hs (Reader.settles_literal name))
    exact fun _ m hm => settles_token '(' hm.finish
  · intro _ m hm
    obtain ⟨w, hword, hopen⟩ := Reader.reads_and.mp hm
    have hlt := Reader.length_lt_of_trim_char (by decide) hopen
    have hle := hword.rest.length_le
    apply Reader.settles_and hm.finish (Reader.settles_expect _ (h m hm.rest (by omega)))
    intro _ v hv
    apply Reader.settles_skipLeft hv.finish (Reader.settles_expect _ (settles_token ',' hv.finish))
    intro _ v' hv'
    have hsuffix := hv'.rest.trans hv.rest
    have hle' := hsuffix.length_le
    exact Reader.settles_expect _ (h v' (hsuffix.trans hm.rest) (by omega))

theorem settles_brackets : rd.Settles brackets s := by
  apply Reader.settles_skipRight hs ?_ fun _ m hm =>
    Reader.settles_expect _ (settles_token ')' hm.finish)
  apply Reader.settles_skipLeft hs (settles_token '(' hs)
  intro _ m hm
  exact Reader.settles_expect _ (h m hm.rest (Reader.length_lt_of_trim_char (by decide) hm))

theorem settles_factor_of_refs
    (hfactor : ∀ m, m <:+ s → m.length < s.length → rd.Settles (.ref Rule.factor) m) :
    rd.Settles factor s := by
  rw [factor_eq]
  apply Reader.settles_choice
  intro p hp
  simp only [alternatives, List.mem_cons, List.not_mem_nil, or_false] at hp
  rcases hp with rfl | rfl | rfl | rfl | rfl | rfl
  · exact Reader.settles_trim hs (Reader.settles_mapErr _ (Reader.settles_pattern _))
  · exact settles_brackets hs h
  · apply Reader.settles_map
    apply Reader.settles_skipLeft hs (settles_token '-' hs)
    exact fun _ m hm => hfactor m hm.rest (Reader.length_lt_of_trim_char (by decide) hm)
  · exact Reader.settles_value _ (Reader.settles_trim hs (Reader.settles_literal _))
  · exact settles_function hs h _ _
  · exact settles_function hs h _ _

end Factors

theorem settles_expression_of_ref (hs : s <:+ rd.bytes)
    (h : ∀ m, m <:+ s → rd.Settles (.ref Rule.factor) m) : rd.Settles expression s := by
  apply Reader.settles_named
  apply settles_chain _ hs
  intro m hm
  apply Reader.settles_named
  exact settles_chain _ (hm.trans hs) fun v hv => h v (hv.trans hm)

theorem settles_rules (input : Input) (depth : Nat) (s : Bytes)
    (hs : s <:+ (definitions.reader depth input).bytes) :
    (2 * s.length ≤ depth → (definitions.reader depth input).Settles factor s) ∧
      (2 * s.length < depth → (definitions.reader depth input).Settles expression s) := by
  -- What an expression refers to stands where it begins itself, what a factor refers to is shorter.
  -- So a factor takes one reference less than an expression, and a byte takes two.
  induction depth generalizing s with
  | zero =>
    constructor
    · intro hdepth
      apply settles_factor_of_refs hs
      all_goals exact fun m _ hlt => by omega
    · intro hdepth
      omega
  | succ depth ih =>
    have hfactor : ∀ m, m <:+ s → 2 * m.length ≤ depth →
        (definitions.reader (depth + 1) input).Settles (.ref Rule.factor) m :=
      fun m hm hdepth => Definitions.settles_ref rfl ((ih m (hm.trans hs)).1 hdepth)
    constructor
    · intro hdepth
      apply settles_factor_of_refs hs
      · intro m hm hlt
        exact Definitions.settles_ref rfl ((ih m (hm.trans hs)).2 (by omega))
      · intro m hm hlt
        exact hfactor m hm (by omega)
    · intro hdepth
      apply settles_expression_of_ref hs
      intro m hm
      have hle := hm.length_le
      exact hfactor m hm (by omega)

theorem settles_complete (hs : s <:+ rd.bytes) (h : rd.Settles expression s) :
    rd.Settles complete s := by
  apply Reader.settles_commit
  · intro offset hoffset
    obtain ⟨near, hnear⟩ := rd.input.near_isOk hoffset
    exact ⟨_, by rw [hnear]; rfl⟩
  · exact Reader.settles_skipRight hs h fun _ _ _ => Reader.settles_atEnd

variable {text : Bytes} {x : Float}

theorem depth_lt (text : Bytes) :
    2 * text.length < Definitions.depth 2 (Input.ofBytes [] text) := by
  have hsize : (Input.ofBytes [] text).size = text.length := rfl
  unfold Definitions.depth
  omega

theorem expression_of_reads {depth : Nat} {input : Input} {u : Bytes}
    (h : (definitions.reader depth input).Reads complete text x u) : Expression x text := by
  obtain ⟨_, m, hm, hend⟩ := Reader.reads_skipRight.mp (Reader.reads_commit.mp h)
  obtain ⟨_, rfl, _⟩ := Reader.reads_atEnd.mp hend
  obtain ⟨t, rfl, ht⟩ := (sound_rules input depth).2 hm
  rwa [List.append_nil]

theorem evaluate_of_expression (h : Expression x text) :
    (evaluate text []).result = .ok (.ok x) := by
  apply Definitions.evaluate_eq_ok.mpr
  have hs : text <:+ (definitions.readerOf 2 text).bytes := List.suffix_rfl
  have hskip : skip text = skip (text ++ []) := by rw [List.append_nil]
  have hread := (complete_rules _ _).2 _ (depth_lt text) h (Nat.le_refl _) hs headNot_nil hskip
  apply Reader.reads_commit.mpr
  exact Reader.reads_skipRight.mpr ⟨(), _, hread, Reader.reads_atEnd.mpr ⟨hread.finish, rfl, rfl⟩⟩

/-- Evaluating without options gives a value exactly for the expressions, and it is the value of the
expression. Every text that is not an expression is refused with an error of the grammar. -/
theorem evaluate_iff_expression (text : Bytes) :
    (∀ x, (evaluate text []).result = .ok (.ok x) ↔ Expression x text) ∧
      ((∃ x, Expression x text) ∨
        ∃ e : ParseError, (evaluate text []).result = .ok (.error e.toError)) := by
  constructor
  · intro x
    constructor
    · exact fun h => expression_of_reads (Definitions.evaluate_eq_ok.mp h)
    · exact evaluate_of_expression
  · by_cases hexpression : ∃ x, Expression x text
    · exact .inl hexpression
    · have hs : text <:+ (definitions.readerOf 2 text).bytes := List.suffix_rfl
      apply Or.inr (Definitions.evaluate_eq_error ?_ ?_ ?_)
      · exact settles_complete hs ((settles_rules _ _ text hs).2 (depth_lt text))
      · exact Reader.not_rejects_commit
      · exact fun x u h => hexpression ⟨x, expression_of_reads h⟩

/-- Differences associate to the left. -/
theorem evaluate_iff_expression_differences :
    ∃ a b c : Binary64, Decimal.readFloat "1" = .ok a ∧ Decimal.readFloat "2" = .ok b ∧
      Decimal.readFloat "3" = .ok c ∧
      (evaluate "1 - 2 - 3" []).result = .ok (.ok (a.toFloat - b.toFloat - c.toFloat)) := by
  have hdigit : ∀ token : Bytes, token ≠ [] → token.all Bytes.isDigit = true →
      ∀ f, Decimal.readFloat token = .ok f → Product f.toFloat token :=
    fun token hne hall f hf => .one (.number (.whole ⟨hne, hall⟩) hf (spaced_self token))
  have hminus : Spaced [Bytes.ascii '-'] " - " := ⟨[32], [32], rfl, rfl, rfl⟩
  refine ⟨_, _, _, rfl, rfl, rfl, ?_⟩
  apply ((evaluate_iff_expression _).1 _).mpr
  have hone := hdigit "1" (by decide) (by decide) _ rfl
  have htwo := hdigit "2" (by decide) (by decide) _ rfl
  have hthree := hdigit "3" (by decide) (by decide) _ rfl
  exact .more (.more (.one hone) .minus hminus htwo) .minus hminus hthree

end Backtrack.Calc
