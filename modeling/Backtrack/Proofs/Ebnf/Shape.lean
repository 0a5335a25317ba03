import Backtrack.Proofs.Ebnf.Translation

/-!
# The shape of trees

A tree that is read from a text has no empty parts: a production has one expression at most, and at
every depth expressions have alternatives, alternatives have terms, and names have letters. So in
what is printed of it, every term is an object with exactly one field, which tells its kind, and no
list is there without elements.

That an expression is followed by no further one is known from how trees are spelled; the rest is
read off the spelling here.
-/

namespace Backtrack.Ebnf.Tree

open Json (Value)

inductive Factor.Shaped : Factor → Prop where
  | name {n : Bytes} (h : n ≠ []) : Shaped (.name n)
  | literal (first : Bytes) (last : Option Bytes) : Shaped (.literal first last)
  | group {body : Alternatives} (h : body ≠ []) (hs : ∀ fs ∈ body, fs ≠ [])
      (hf : ∀ fs ∈ body, ∀ f ∈ fs, Shaped f) : Shaped (.group body)
  | option {body : Alternatives} (h : body ≠ []) (hs : ∀ fs ∈ body, fs ≠ [])
      (hf : ∀ fs ∈ body, ∀ f ∈ fs, Shaped f) : Shaped (.option body)
  | repetition {body : Alternatives} (h : body ≠ []) (hs : ∀ fs ∈ body, fs ≠ [])
      (hf : ∀ fs ∈ body, ∀ f ∈ fs, Shaped f) : Shaped (.repetition body)

structure Alternatives.Shaped (e : Alternatives) : Prop where
  alternatives : e ≠ []
  terms : ∀ fs ∈ e, fs ≠ []
  each : ∀ fs ∈ e, ∀ f ∈ fs, f.Shaped

/-- A production without empty parts, which has one expression at most. -/
structure Production.Shaped (p : Production) : Prop where
  name : p.name ≠ []
  once : p.body.length ≤ 1
  body : ∀ e ∈ p.body, e.Shaped

theorem ne_nil_of_name {n : Bytes} (h : Name n) : n ≠ [] := by
  cases h
  nofun

mutual

theorem Factor.Spelled.shaped : (f : Factor) → {ls : List Lexeme} → f.Spelled ls → f.Shaped
  | .name n, _, h => by
    cases h with
    | name h => exact .name (ne_nil_of_name h)
  | .literal first last, _, _ => .literal first last
  | .group body, _, h => by
    cases h with
    | group h =>
      obtain ⟨hbody, hterms, heach⟩ := AlternativesOf.shaped body h
      exact .group hbody hterms heach
  | .option body, _, h => by
    cases h with
    | option h =>
      obtain ⟨hbody, hterms, heach⟩ := AlternativesOf.shaped body h
      exact .option hbody hterms heach
  | .repetition body, _, h => by
    cases h with
    | repetition h =>
      obtain ⟨hbody, hterms, heach⟩ := AlternativesOf.shaped body h
      exact .repetition hbody hterms heach

theorem AlternativesOf.shaped : (e : List (List Factor)) → {ls : List Lexeme} →
    AlternativesOf Factor.Spelled e ls → Alternatives.Shaped e
  | fs :: rest, _, h => by
    cases h with
    | last h =>
      obtain ⟨hfs, heach⟩ := SequenceOf.shaped fs h
      exact ⟨List.cons_ne_nil _ _, List.forall_mem_singleton.mpr hfs,
        List.forall_mem_singleton.mpr heach⟩
    | next h hrest =>
      obtain ⟨hfs, heach⟩ := SequenceOf.shaped fs h
      obtain ⟨_, hterms, hmore⟩ := AlternativesOf.shaped rest hrest
      exact ⟨List.cons_ne_nil _ _, List.forall_mem_cons.mpr ⟨hfs, hterms⟩,
        List.forall_mem_cons.mpr ⟨heach, hmore⟩⟩

theorem SequenceOf.shaped : (fs : List Factor) → {ls : List Lexeme} →
    SequenceOf Factor.Spelled fs ls → fs ≠ [] ∧ ∀ f ∈ fs, f.Shaped
  | f :: fs, _, h => by
    refine ⟨List.cons_ne_nil f fs, ?_⟩
    cases h with
    | last h => exact List.forall_mem_singleton.mpr (Factor.Spelled.shaped f h)
    | next h hrest =>
      exact List.forall_mem_cons.mpr ⟨Factor.Spelled.shaped f h, (SequenceOf.shaped fs hrest).2⟩

end

theorem Production.Spelled.shaped {p : Production} {ls : List Lexeme} (h : p.Spelled ls) :
    p.Shaped := by
  cases h with
  | empty hn => exact ⟨ne_nil_of_name hn, Nat.zero_le 1, nofun⟩
  | body hn h =>
    refine ⟨ne_nil_of_name hn, Nat.le_refl 1, ?_⟩
    exact List.forall_mem_singleton.mpr (AlternativesOf.shaped _ h)

theorem Document.Spelled.shaped {d : Document} {ls : List Lexeme} (h : d.Spelled ls) :
    ∀ p ∈ d, p.Shaped := by
  induction h with
  | nil => nofun
  | cons h _ ih => exact List.forall_mem_cons.mpr ⟨h.shaped, ih⟩

mutual

inductive TermObject : Value → Prop where
  | name {n : Bytes} (h : n ≠ []) : TermObject (.object [("Name", .string n)])
  | literal (fields : List (Bytes × Value)) : TermObject (.object [("Literal", .object fields)])
  | group {e : Value} (h : ExpressionObject e) :
    TermObject (.object [("Group", .object [("Expression", e)])])
  | option {e : Value} (h : ExpressionObject e) :
    TermObject (.object [("Option", .object [("Expression", e)])])
  | repetition {e : Value} (h : ExpressionObject e) :
    TermObject (.object [("Repetition", .object [("Expression", e)])])

inductive ExpressionObject : Value → Prop where
  | mk {alternatives : List Value} (h : alternatives ≠ [])
      (hs : ∀ v ∈ alternatives, SequenceObject v) :
      ExpressionObject (.object [("Alternatives", .array alternatives)])

inductive SequenceObject : Value → Prop where
  | mk {terms : List Value} (h : terms ≠ []) (ht : ∀ v ∈ terms, TermObject v) :
    SequenceObject (.object [("Terms", .array terms)])

end

inductive ProductionObject : Value → Prop where
  | empty {n : Bytes} (h : n ≠ []) : ProductionObject (.object [("Name", .string n)])
  | body {n : Bytes} {e : Value} (h : n ≠ []) (he : ExpressionObject e) :
    ProductionObject (.object [("Name", .string n), ("Expression", .array [e])])

inductive DocumentObject : Value → Prop where
  | empty : DocumentObject (.object [])
  | productions {ps : List Value} (h : ps ≠ []) (hp : ∀ v ∈ ps, ProductionObject v) :
    DocumentObject (.object [("Productions", .array ps)])

theorem alternativesToJson_eq (e : Alternatives) : alternativesToJson e =
    e.map fun fs => object [listField "Terms" (termsToJson fs)] := by
  induction e with
  | nil => rfl
  | cons fs rest ih => rw [alternativesToJson, ih, List.map_cons]

theorem termsToJson_eq (fs : List Factor) : termsToJson fs = fs.map Factor.toJson := by
  induction fs with
  | nil => rfl
  | cons f fs ih => rw [termsToJson, ih, List.map_cons]

theorem object_listField {key : Bytes} {values : List Value} (h : values ≠ []) :
    object [listField key values] = .object [(key, .array values)] := by
  simp [object, listField, h]

theorem textField_eq {key text : Bytes} (h : text ≠ []) :
    textField key text = some (key, .string text) := by
  simp [textField, h]

theorem expressionObject {e : Alternatives} (h : e ≠ []) (hs : ∀ fs ∈ e, fs ≠ [])
    (hf : ∀ fs ∈ e, ∀ f ∈ fs, TermObject f.toJson) :
    ExpressionObject (object [listField "Alternatives" (alternativesToJson e)]) := by
  rw [alternativesToJson_eq, object_listField (by simpa using h)]
  refine .mk (by simpa using h) (List.forall_mem_map.mpr fun fs hfs => ?_)
  have hterms : termsToJson fs ≠ [] := by simpa [termsToJson_eq] using hs fs hfs
  rw [object_listField hterms]
  refine .mk hterms ?_
  rw [termsToJson_eq]
  exact List.forall_mem_map.mpr (hf fs hfs)

theorem Factor.Shaped.toJson {f : Factor} (h : f.Shaped) : TermObject f.toJson := by
  induction h with
  | name h =>
    rw [Factor.toJson, textField_eq h]
    exact .name h
  | literal first last =>
    rw [Factor.toJson]
    exact .literal _
  | group h hs _ ih =>
    rw [Factor.toJson]
    exact .group (expressionObject h hs ih)
  | option h hs _ ih =>
    rw [Factor.toJson]
    exact .option (expressionObject h hs ih)
  | repetition h hs _ ih =>
    rw [Factor.toJson]
    exact .repetition (expressionObject h hs ih)

theorem Production.Shaped.toJson {p : Production} (h : p.Shaped) : ProductionObject p.toJson := by
  obtain ⟨hname, honce, hbody⟩ := h
  unfold Production.toJson
  rw [textField_eq hname]
  rcases p with ⟨n, _ | ⟨e, _ | ⟨e', rest⟩⟩⟩
  · exact .empty hname
  · obtain ⟨h, hs, hf⟩ := List.forall_mem_singleton.mp hbody
    exact .body hname (expressionObject h hs fun fs hfs f hmem => (hf fs hfs f hmem).toJson)
  · simp at honce

theorem documentObject {d : Document} (h : ∀ p ∈ d, p.Shaped) : DocumentObject d.toJson := by
  unfold Document.toJson
  rcases d with _ | ⟨p, d⟩
  · exact .empty
  · rw [object_listField (by simp)]
    exact .productions (by simp) (List.forall_mem_map.mpr fun p hp => (h p hp).toJson)

/-- A tree that is read from a text has no empty parts at any depth, and no production has more than
one expression. In the object that it is printed as, every term has exactly one field. -/
theorem shaped_of_parse {filename text : Bytes} {d : Document}
    (h : (parse filename text).result = .ok (.ok d)) :
    (∀ p ∈ d, p.Shaped) ∧ DocumentObject d.toJson := by
  obtain ⟨ls, hspelled, _⟩ := spelled_of_parse h
  exact ⟨hspelled.shaped, documentObject hspelled.shaped⟩

/-- A production whose expression repeats two alternatives. -/
def repeating : Document := [⟨"a", [[[.repetition [[.name "b"], [.name "c"]]]]]⟩]

theorem parse_repeating : (parse [] "a={b|c}.").result = .ok (.ok repeating) := by
  have hname {b : UInt8} (hb : isNameStart b = true) : Name [b] := .mk hb rfl
  have hb : SequenceOf Factor.Spelled [.name "b"] [.name "b"] := .last (.name (hname (by decide)))
  have hc : SequenceOf Factor.Spelled [.name "c"] [.name "c"] := .last (.name (hname (by decide)))
  have hbody : AlternativesOf Factor.Spelled [[.name "b"], [.name "c"]]
      [.name "b", .mark '|', .name "c"] := .next hb (.last hc)
  have hspelled : repeating.Spelled [.name "a", .mark '=', .mark '\x7b', .name "b", .mark '|',
      .name "c", .mark '\x7d', .mark '.'] :=
    .cons (.body (hname (by decide)) (.last (.last (.repetition hbody)))) .nil
  refine parse_of_spelled hspelled ?_
  refine .cons (m := [61, 123, 98, 124, 99, 125, 46]) (.name (hname (by decide))) rfl
    (fun _ => Text.headNot_cons.mpr (by decide)) ?_
  refine .cons (m := [123, 98, 124, 99, 125, 46]) (.mark (by decide)) rfl nofun ?_
  refine .cons (m := [98, 124, 99, 125, 46]) (.mark (by decide)) rfl nofun ?_
  refine .cons (m := [124, 99, 125, 46]) (.name (hname (by decide))) rfl
    (fun _ => Text.headNot_cons.mpr (by decide)) ?_
  refine .cons (m := [99, 125, 46]) (.mark (by decide)) rfl nofun ?_
  refine .cons (m := [125, 46]) (.name (hname (by decide))) rfl
    (fun _ => Text.headNot_cons.mpr (by decide)) ?_
  refine .cons (m := [46]) (.mark (by decide)) rfl nofun ?_
  exact laid_mark (m := []) (by decide) rfl

theorem shaped_of_parse_repeating : (parse [] "a={b|c}.").result = .ok (.ok repeating) ∧
    (∀ p ∈ repeating, p.Shaped) ∧ DocumentObject repeating.toJson :=
  ⟨parse_repeating, shaped_of_parse parse_repeating⟩

end Backtrack.Ebnf.Tree
