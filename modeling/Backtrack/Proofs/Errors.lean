import Backtrack.Proofs.Parser.Bounds

/-!
# The place of an error

Errors wrap one another, and an error that reaches a caller is given a place on the way. The first
parse error of the chain decides, whether or not it has a place itself. This never hides a place
further in: an error that can be made at all and has no place yet wraps nothing (`Made.frank`). So a
place once known is kept, by whatever hands the error goes through.

Errors are values. What `Input.annotate` answers is a new one, and the one that was given stays as
it was.
-/

namespace Backtrack

namespace Error

def own? : Error → Option ParseError
  | located message offset input cause => some ⟨message, offset, input, cause⟩
  | plain _ | wrapped .. | unexpected .. => none

mutual

def chain : Error → List Error
  | plain text => [plain text]
  | located message offset input cause => located message offset input cause :: chainOf cause
  | wrapped text inner => wrapped text inner :: inner.chain
  | unexpected position near trailing => [unexpected position near trailing]

def chainOf : Option Error → List Error
  | none => []
  | some error => error.chain

end

theorem chain_eq (error : Error) : error.chain = error :: chainOf error.unwrap := by
  cases error <;> rfl

/-- The parse errors that unwrapping leads through, from the outside in. -/
def parseErrors (error : Option Error) : List ParseError := (chainOf error).filterMap own?

theorem parseErrors_some (error : Error) :
    parseErrors (some error) = error.own?.toList ++ parseErrors error.unwrap := by
  unfold parseErrors
  rw [chainOf, chain_eq, List.filterMap_cons]
  cases error.own? <;> rfl

theorem parseErrors_parseError (e : ParseError) :
    parseErrors (some e.toError) = e :: parseErrors e.cause := parseErrors_some e.toError

theorem parseErrors_wrapped (text : Bytes) (inner : Error) :
    parseErrors (some (.wrapped text inner)) = parseErrors (some inner) :=
  parseErrors_some (.wrapped text inner)

/-- The search for a parse error stops at the outermost one. -/
theorem parseError?_eq_head? : (error : Error) →
    error.parseError? = (parseErrors (some error)).head?
  | plain _ | located .. | unexpected .. => rfl
  | wrapped text inner => by
    rw [parseErrors_wrapped, parseError?]
    exact parseError?_eq_head? inner

end Error

namespace Input

variable {input : Input} {offset : Int} {error : Error} {e : ParseError} {es : List ParseError}

theorem annotate_of_cons (h : Error.parseErrors (some error) = e :: es) :
    input.annotate offset (some error) = .ok
      (if e.input.isSome then e else { e with offset := offset, input := some input }) := by
  unfold annotate
  dsimp only
  rw [Error.parseError?_eq_head?, h]
  dsimp only [List.head?_cons]
  cases e.input <;> rfl

theorem annotate_of_nil (h : Error.parseErrors (some error) = []) :
    input.annotate offset (some error) =
      .ok { message := error.text, offset := offset, input := some input } := by
  unfold annotate
  dsimp only
  rw [Error.parseError?_eq_head?, h]
  rfl

theorem of_annotate_none (h : input.annotate offset none = .ok e) :
    ∃ near, input.near offset = .ok near ∧
      e = { message := "unexpected input " ++ near, offset := offset, input := some input } := by
  unfold annotate at h
  cases hnear : input.near offset with
  | error fault =>
    rw [hnear] at h
    cases h
  | ok near =>
    rw [hnear] at h
    cases h
    exact ⟨near, rfl, rfl⟩

theorem annotate_placed (h : e.input.isSome) :
    input.annotate offset (some e.toError) = .ok e := by
  rw [annotate_of_cons (Error.parseErrors_parseError e), if_pos h]

end Input

namespace Error

/-- The errors that the operations on errors can make, and the absence of an error. An operation makes
an error of its own from the one that it is given, which is a value like any other: that it is not
modified needs no saying. -/
inductive Made : Option Error → Prop where
  | none : Made none
  | plain (text : Bytes) : Made (some (.plain text))
  /-- A message, and perhaps an offset, that belong to no input yet. -/
  | bare (message : Bytes) (offset : Int) :
      Made (some ({ message := message, offset := offset } : ParseError).toError)
  | placed {input : Input} {offset : Int} {error : Option Error} {e : ParseError}
      (h : Made error) (he : input.annotate offset error = .ok e) : Made (some e.toError)
  | inFront (input : Input) (offset : Int) (message : Bytes) {error : Error}
      (h : Made (some error)) : Made (some (input.wrap offset message error).toError)
  | wrapped (text : Bytes) {error : Error} (h : Made (some error)) :
      Made (some (.wrapped text error))
  | unexpected (position : Position) (near : Bytes) (trailing : Bool) :
      Made (some (.unexpected position near trailing))
  | unwrapped {error : Error} (h : Made (some error)) : Made error.unwrap

/-- No parse error without a place wraps another error. -/
def Frank (error : Option Error) : Prop :=
  ∀ e ∈ parseErrors error, e.input = .none → e.cause = .none

variable {error : Error}

theorem parseErrors_unwrap_subset : parseErrors error.unwrap ⊆ parseErrors (some error) := by
  rw [parseErrors_some]
  exact List.subset_append_right _ _

theorem frank_of_nil {error : Option Error} (h : parseErrors error = []) : Frank error := by
  rw [Frank, h]
  nofun

theorem frank_cons {e : ParseError} (h : Frank e.cause) (he : e.input = .none → e.cause = .none) :
    Frank (some e.toError) := by
  rw [Frank, parseErrors_parseError]
  exact List.forall_mem_cons.mpr ⟨he, h⟩

theorem Frank.unwrap (h : Frank (some error)) : Frank error.unwrap :=
  fun e he => h e (parseErrors_unwrap_subset he)

/-- The other parse errors of a chain are those that the outermost one wraps. -/
theorem parseErrors_cause : (error : Error) → ∀ {e : ParseError} {es : List ParseError},
    parseErrors (some error) = e :: es → parseErrors e.cause = es
  | plain _, _, _, h | unexpected .., _, _, h => by cases h
  | wrapped text inner, _, _, h => by
    rw [parseErrors_wrapped] at h
    exact parseErrors_cause inner h
  | located message offset input cause, e, es, h => by
    have heq := parseErrors_parseError ⟨message, offset, input, cause⟩
    obtain ⟨rfl, rfl⟩ := List.cons.inj (heq.symm.trans h)
    rfl

section Outermost

variable {e : ParseError} {es : List ParseError} (h : Frank (some error))
  (hparse : parseErrors (some error) = e :: es)
include h hparse

theorem Frank.cause : Frank e.cause := by
  intro d hd
  rw [parseErrors_cause error hparse] at hd
  exact h d (hparse ▸ List.mem_cons_of_mem e hd)

theorem Frank.outermost (hplace : e.input = .none) : e.cause = .none :=
  h e (hparse ▸ List.mem_cons_self) hplace

/-- A parse error without a place is the only one of its chain. -/
theorem Frank.alone (hplace : e.input = .none) : es = [] := by
  rw [← parseErrors_cause error hparse, h.outermost hparse hplace]
  rfl

end Outermost

/-- A chain has no parse error, or a single one without a place, or the outermost one has one. -/
theorem Frank.cases {error : Option Error} (h : Frank error) : parseErrors error = [] ∨
    (∃ inner e, error = some inner ∧ parseErrors error = [e] ∧ e.input = .none) ∨
    ∃ inner e es, error = some inner ∧ parseErrors error = e :: es ∧ e.input.isSome := by
  cases error with
  | none => exact .inl rfl
  | some error =>
    cases hparse : parseErrors (some error) with
    | nil => exact .inl rfl
    | cons e es =>
      cases hplace : e.input with
      | none =>
        obtain rfl := h.alone hparse hplace
        exact .inr (.inl ⟨error, e, rfl, rfl, hplace⟩)
      | some input => exact .inr (.inr ⟨error, e, es, rfl, rfl, by rw [hplace]; rfl⟩)

/-- Placing an error keeps what is behind the outermost parse error, or leaves nothing behind. -/
theorem Frank.annotate {error : Option Error} (h : Frank error) {input : Input} {offset : Int}
    {e : ParseError} (he : input.annotate offset error = .ok e) :
    Frank (some e.toError) ∧ e.input.isSome := by
  rcases h.cases with hparse | ⟨inner, d, rfl, hparse, hplace⟩ |
    ⟨inner, d, ds, rfl, hparse, hplace⟩
  · cases error with
    | none =>
      obtain ⟨near, _, rfl⟩ := Input.of_annotate_none he
      exact ⟨frank_cons (frank_of_nil rfl) nofun, rfl⟩
    | some error =>
      rw [Input.annotate_of_nil hparse] at he
      cases he
      exact ⟨frank_cons (frank_of_nil rfl) nofun, rfl⟩
  · have hcause := h.cause hparse
    rw [Input.annotate_of_cons hparse, hplace] at he
    cases he
    exact ⟨frank_cons hcause nofun, rfl⟩
  · rw [Input.annotate_of_cons hparse, if_pos hplace] at he
    cases he
    exact ⟨frank_cons (h.cause hparse) (h.outermost hparse), hplace⟩

/-- An error that can be made and has no place wraps nothing. -/
theorem Made.frank {error : Option Error} (h : Made error) : Frank error := by
  induction h with
  | none | plain | unexpected => exact frank_of_nil rfl
  | bare message offset => exact frank_cons (frank_of_nil rfl) fun _ => rfl
  | placed _ he ih => exact (ih.annotate he).1
  | inFront input offset message _ ih => exact frank_cons ih nofun
  | wrapped text _ ih =>
    rw [Frank, parseErrors_wrapped]
    exact ih
  | unwrapped _ ih => exact ih.unwrap

/-- An error that can be made keeps the place it has. Given a place of the text, it comes out with
one: as the outermost parse error of its chain, just as it is, if any parse error of the chain has a
place; as its only parse error, with the message and the cause of that, if that has none; and
otherwise with its text, or with what is found at the place if there is no error. From then on no
other place changes it. -/
theorem annotate_keeps_place {error : Option Error} (h : Made error) (input : Input) (offset : Int)
    (hstart : 0 ≤ offset) :
    ∃ e, input.annotate offset error = .ok e ∧ e.input.isSome ∧ Made (some e.toError) ∧
      ((∃ d ∈ parseErrors error, d.input.isSome) → (parseErrors error).head? = some e) ∧
      (∀ d ∈ parseErrors error, (∀ d' ∈ parseErrors error, d'.input = .none) →
        parseErrors error = [d] ∧ e = { d with offset := offset, input := some input }) ∧
      (parseErrors error = [] → e.offset = offset ∧ e.input = some input ∧ e.cause = .none ∧
        (error = .none →
          ∃ near, input.near offset = .ok near ∧ e.message = "unexpected input " ++ near) ∧
        ∀ plain, error = some plain → e.message = plain.text) ∧
      ∀ (other : Input) (place : Int), other.annotate place (some e.toError) = .ok e := by
  obtain ⟨e, he⟩ := input.annotate_isOk hstart error
  have hplace : e.input.isSome := (h.frank.annotate he).2
  refine ⟨e, he, hplace, .placed h he, ?_⟩
  rcases h.frank.cases with hparse | ⟨inner, d, rfl, hparse, hnone⟩ |
    ⟨inner, d, ds, rfl, hparse, hsome⟩
  · rw [hparse]
    refine ⟨nofun, nofun, fun _ => ?_, fun _ _ => Input.annotate_placed hplace⟩
    cases error with
    | none =>
      obtain ⟨near, hnear, rfl⟩ := Input.of_annotate_none he
      exact ⟨rfl, rfl, rfl, fun _ => ⟨near, hnear, rfl⟩, nofun⟩
    | some error =>
      rw [Input.annotate_of_nil hparse] at he
      cases he
      refine ⟨rfl, rfl, rfl, nofun, ?_⟩
      rintro _ ⟨⟩
      rfl
  · rw [Input.annotate_of_cons hparse, hnone] at he
    cases he
    rw [hparse]
    refine ⟨?_, ?_, nofun, fun _ _ => Input.annotate_placed hplace⟩
    · rintro ⟨d', hd', hsome⟩
      rw [List.mem_singleton.mp hd', hnone] at hsome
      cases hsome
    · intro d' hd' _
      obtain rfl := List.mem_singleton.mp hd'
      exact ⟨rfl, rfl⟩
  · rw [Input.annotate_of_cons hparse, if_pos hsome] at he
    cases he
    rw [hparse]
    refine ⟨fun _ => rfl, ?_, nofun, fun _ _ => Input.annotate_placed hplace⟩
    intro d' _ hall
    rw [hall e List.mem_cons_self] at hsome
    cases hsome

/-- A message without a place, wrapped twice, gets the place of its innermost caller; callers
further out do not change it. -/
theorem annotate_keeps_place_nested :
    let input : Input := Input.ofBytes [] "ab"
    let error : Error := .wrapped "outer" { message := "inner" : ParseError }
    Made (some error) ∧
      input.annotate 1 (some error) = .ok { message := "inner", offset := 1, input := some input } ∧
        input.annotate 2 (some (ParseError.toError ⟨"inner", 1, some input, .none⟩)) =
          .ok ⟨"inner", 1, some input, .none⟩ := by
  intro input error
  have hmade : Made (some error) := .wrapped "outer" (.bare "inner" 0)
  obtain ⟨e, he, -, -, -, halone, -, hstays⟩ := annotate_keeps_place hmade input 1 (by decide)
  have hparse : parseErrors (some error) = [{ message := "inner" }] := rfl
  rw [hparse] at halone
  obtain ⟨-, rfl⟩ := halone _ List.mem_cons_self (by simp)
  exact ⟨hmade, he, hstays input 2⟩

end Error

end Backtrack
