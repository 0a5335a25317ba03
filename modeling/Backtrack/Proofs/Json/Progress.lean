import Mathlib.Logic.Relation
import Backtrack.Proofs.Json.Lexemes

/-!
# How far a text is JSON

A text is followed token by token, with a stack of the brackets that are open. What has been
followed can always be completed, and how far one gets in a text depends on the tokens passed and
not on what comes behind them.

This module does NOT say what the grammar makes of a text that is not followed to its end.
-/

namespace Backtrack.Json

open Numerals Text

inductive Bracket where
  | array
  | object

/-- What is due next; `inside` are the brackets that are open around it, the innermost first. -/
inductive State where
  | value (inside : List Bracket)
  | elements (inside : List Bracket)
  | members (inside : List Bracket)
  | member (inside : List Bracket)
  | colon (inside : List Bracket)
  | done (inside : List Bracket)

def valueNext (inside : List Bracket) : Kind → Option State
  | .number | .string | .word => some (.done inside)
  | .mark c =>
    if c = '[' then some (.elements inside)
    else if c = '\x7b' then some (.members inside)
    else none

def Kind.StartsValue (kind : Kind) : Prop :=
  kind = .number ∨ kind = .string ∨ kind = .word ∨ kind = .mark '[' ∨ kind = .mark '\x7b'

/-- What is due behind a token, if this one is due or may come. -/
def State.next : State → Kind → Option State
  | .value inside, kind => valueNext inside kind
  | .elements inside, kind =>
    if kind = .mark ']' then some (.done inside) else valueNext (.array :: inside) kind
  | .members inside, kind =>
    if kind = .mark '\x7d' then some (.done inside)
    else if kind = .string then some (.colon inside)
    else none
  | .member inside, kind => if kind = .string then some (.colon inside) else none
  | .colon inside, kind => if kind = .mark ':' then some (.value (.object :: inside)) else none
  | .done [], _ => none
  | .done (.array :: inside), kind =>
    if kind = .mark ',' then some (.value (.array :: inside))
    else if kind = .mark ']' then some (.done inside)
    else none
  | .done (.object :: inside), kind =>
    if kind = .mark ',' then some (.member inside)
    else if kind = .mark '\x7d' then some (.done inside)
    else none

abbrev Place := State × Bytes

inductive Passes : Place → Place → Prop where
  | mk {st st' : State} {kind : Kind} {token u : Bytes} (h : Lexeme kind token u)
      (hheld : kind = .number → ∃ v, readNumber token = .ok v) (hnext : st.next kind = some st') :
    Passes (st, token ++ u) (st', skip u)

abbrev Follows : Place → Place → Prop := Relation.ReflTransGen Passes

variable {st st' : State} {s t u r z : Bytes} {p q : Place}

def Refuses (st : State) (s : Bytes) : Prop :=
  ∀ kind token u, Lexeme kind token u → s = token ++ u → st.next kind = none

theorem Refuses.not_passes (h : Refuses st s) : ¬ Passes (st, s) q := by
  intro hpass
  cases hpass with
  | mk htoken _ hnext =>
    rw [h _ _ _ htoken rfl] at hnext
    cases hnext

theorem refuses_nil (st : State) : Refuses st [] := by
  intro kind token u htoken heq
  obtain ⟨b, rest, rfl, _⟩ := htoken.head
  cases heq

theorem refuses_cons {b : UInt8} (h : st.next (kindOf b) = none) (s : Bytes) :
    Refuses st (b :: s) := by
  intro kind token u htoken heq
  obtain ⟨c, rest, rfl, rfl, _⟩ := htoken.head
  obtain ⟨rfl, _⟩ := List.cons.inj heq
  exact h

/-- A token that is not due is not due whatever comes behind it. -/
theorem Refuses.behind {kind : Kind} {token : Bytes} (h : Refuses st (token ++ u))
    (htoken : Lexeme kind token u) (r : Bytes) : Refuses st (token ++ r) := by
  have hnone := h kind token u htoken rfl
  obtain ⟨b, rest, rfl, rfl, _⟩ := htoken.head
  exact refuses_cons hnone (rest ++ r)

theorem valueNext_eq_none {inside : List Bracket} {kind : Kind} :
    valueNext inside kind = none ↔ ¬ kind.StartsValue := by
  cases kind with
  | number | string | word => simp [valueNext, Kind.StartsValue]
  | mark c =>
    by_cases harray : c = '['
    · simp [valueNext, Kind.StartsValue, harray]
    · by_cases hobject : c = '\x7b'
      · simp [valueNext, Kind.StartsValue, hobject]
      · simp [valueNext, Kind.StartsValue, harray, hobject]

theorem refuses_value {inside : List Bracket} (hnumber : Lacks .number s)
    (hstring : Lacks .string s) (hword : Lacks .word s) (harray : Lacks (.mark '[') s)
    (hobject : Lacks (.mark '\x7b') s) : Refuses (.value inside) s := by
  intro kind token u htoken heq
  apply valueNext_eq_none.mpr
  rintro (rfl | rfl | rfl | rfl | rfl)
  · exact hnumber token u htoken heq
  · exact hstring token u htoken heq
  · exact hword token u htoken heq
  · exact harray token u htoken heq
  · exact hobject token u htoken heq

/-- Behind a whole value nothing may come. -/
theorem refuses_done (s : Bytes) : Refuses (.done []) s := fun _ _ _ _ _ => rfl

theorem passes_rightUnique : Relator.RightUnique Passes := by
  rintro p q r hq hr
  cases hq with
  | @mk st st₁ kind token u htoken _ hnext =>
    generalize hp : (st, token ++ u) = p at hr
    cases hr with
    | mk htoken' _ hnext' =>
      obtain ⟨rfl, heq⟩ := Prod.mk.inj hp
      obtain ⟨rfl, _, rfl⟩ := htoken.unique htoken' heq
      rw [hnext] at hnext'
      rw [Option.some.inj hnext']

/-- Of two places that are come to, one is on the way to the other. -/
theorem Follows.linear {p₁ p₂ : Place} (h₁ : Follows p p₁) (h₂ : Follows p p₂) :
    Follows p₁ p₂ ∨ Follows p₂ p₁ :=
  Relation.ReflTransGen.total_of_right_unique passes_rightUnique h₁ h₂

theorem Follows.eq_of_refuses (h : Follows (st, s) q) (hrefuses : Refuses st s) : q = (st, s) := by
  rcases h.cases_head with heq | ⟨r, hpass, _⟩
  · exact heq.symm
  · exact absurd hpass hrefuses.not_passes

/-- Where one cannot go on before the end of a whole value, that end is not come to. -/
theorem Follows.not_done (h : Follows p q) (hstuck : ∀ r, ¬ Passes q r)
    (hunfinished : q ≠ (.done [], [])) : ¬ Follows p (.done [], []) := by
  intro hdone
  rcases h.linear hdone with hrest | hrest
  · rcases hrest.cases_head with heq | ⟨r, hpass, _⟩
    · exact hunfinished heq
    · exact hstuck r hpass
  · exact hunfinished (hrest.eq_of_refuses (refuses_nil _))

theorem Follows.visible (h : Follows p q) (hp : HeadNot isSpaceByte p.2) :
    HeadNot isSpaceByte q.2 := by
  induction h with
  | refl => exact hp
  | tail _ hpass _ =>
    cases hpass with
    | mk => exact headNot_skip _

theorem Passes.suffix (h : Passes p q) : q.2 <:+ p.2 := by
  cases h with
  | mk => exact (skip_suffix _).trans (List.suffix_append _ _)

theorem Follows.suffix (h : Follows p q) : q.2 <:+ p.2 := by
  induction h with
  | refl => exact List.suffix_rfl
  | tail _ hpass ih => exact hpass.suffix.trans ih

/-- A text that is followed up to some place is followed up to there with anything behind that can
take the place of what was there. -/
theorem Follows.replace (h : Follows (st, z ++ u) (st', u)) (hr : Replaces r u) :
    Follows (st, z ++ r) (st', r) ∧ Replaces (z ++ r) (z ++ u) := by
  -- From the front, token by token: what is left on the way is always something in front of `u`.
  generalize hp : (st, z ++ u) = p at h
  induction h using Relation.ReflTransGen.head_induction_on generalizing st z with
  | refl =>
    obtain ⟨rfl, hz⟩ := Prod.mk.inj hp
    obtain rfl : z = [] := List.append_left_eq_self.mp hz
    exact ⟨.refl, hr⟩
  | head hpass hrest ih =>
    cases hpass with
    | @mk _ st₁ kind token v htoken hheld hnext =>
      obtain ⟨rfl, heq⟩ := Prod.mk.inj hp
      obtain ⟨z₁, hz₁⟩ : ∃ z₁, z₁ ++ u = skip v := Follows.suffix hrest
      obtain ⟨blanks, hblanks, hv⟩ := exists_blanks v
      have hmiddle : ((st₁, z₁ ++ u) : Place) = (st₁, skip v) := by rw [hz₁]
      obtain ⟨hfollows, hreplaces⟩ := ih hmiddle
      have hz : z = token ++ (blanks ++ z₁) := by
        apply (List.append_left_inj u).mp
        rw [heq, hv, ← hz₁]
        simp
      have hleft : v = blanks ++ (z₁ ++ u) := by rw [hz₁, ← hv]
      -- Only a number could go on, and it does not where it ended in front of `u`.
      have htoken' : Lexeme kind token (blanks ++ (z₁ ++ r)) := by
        apply htoken.follow
        intro t ht
        rw [hleft] at ht
        exact hreplaces.ended_blanks hblanks ht
      have hsplit : z ++ r = token ++ (blanks ++ (z₁ ++ r)) := by
        rw [hz]
        simp
      constructor
      · have hpass : Passes (st, z ++ r) (st₁, z₁ ++ r) := by
          rw [hsplit]
          have hskip : skip (blanks ++ (z₁ ++ r)) = z₁ ++ r := by
            rw [skip_append hblanks, skip_of_headNot hreplaces.visible]
          have hmk := Passes.mk htoken' hheld hnext
          rwa [hskip] at hmk
        exact Relation.ReflTransGen.head hpass hfollows
      · rw [hsplit, heq]
        exact htoken.replaces _

def closers : List Bracket → Bytes
  | [] => []
  | .array :: inside => Bytes.ascii ']' :: closers inside
  | .object :: inside => Bytes.ascii '\x7d' :: closers inside

/-- A text that completes what has been followed up to a state. -/
def State.completion : State → Bytes
  | .value inside => "null" ++ closers inside
  | .elements inside => Bytes.ascii ']' :: closers inside
  | .members inside => Bytes.ascii '\x7d' :: closers inside
  | .member inside => "\x22\x22:null\x7d" ++ closers inside
  | .colon inside => ":null\x7d" ++ closers inside
  | .done inside => closers inside

theorem headNot_closers {kind : UInt8 → Bool} (harray : kind (Bytes.ascii ']') = false)
    (hobject : kind (Bytes.ascii '\x7d') = false) (inside : List Bracket) :
    HeadNot kind (closers inside) := by
  cases inside with
  | nil => exact headNot_nil
  | cons bracket inside =>
    cases bracket with
    | array => exact headNot_cons.mpr harray
    | object => exact headNot_cons.mpr hobject

theorem visible_closers (inside : List Bracket) : HeadNot isSpaceByte (closers inside) :=
  headNot_closers (by decide) (by decide) inside

/-- Passing a token that no blanks follow. -/
theorem passes_visible {kind : Kind} {token : Bytes} (h : Lexeme kind token u)
    (hkind : kind ≠ .number) (hnext : st.next kind = some st') (hu : HeadNot isSpaceByte u) :
    Passes (st, token ++ u) (st', u) := by
  have hpass := Passes.mk h (fun hnumber => absurd hnumber hkind) hnext
  rwa [skip_of_headNot hu] at hpass

theorem passes_mark {c : Char} (hc : c ∈ marks) (hnext : st.next (.mark c) = some st')
    (hu : HeadNot isSpaceByte u) : Passes (st, Bytes.ascii c :: u) (st', u) :=
  passes_visible (.mark hc) nofun hnext hu

theorem follows_closers (inside : List Bracket) :
    Follows (.done inside, closers inside) (.done [], []) := by
  induction inside with
  | nil => exact .refl
  | cons bracket inside ih =>
    cases bracket with
    | array => exact .head (passes_mark (by decide) rfl (visible_closers inside)) ih
    | object => exact .head (passes_mark (by decide) rfl (visible_closers inside)) ih

theorem follows_null (inside : List Bracket) (hu : HeadNot isSpaceByte u) :
    Follows (.value inside, Bytes.ofString "null" ++ u) (.done inside, u) :=
  .single (passes_visible (.word (by simp [words])) nofun rfl hu)

/-- From every state a whole value can be reached. -/
theorem follows_completion (st : State) : Follows (st, st.completion) (.done [], []) := by
  have hcolon : ∀ inside, Follows (.colon inside, (State.colon inside).completion)
      (.done [], []) := by
    intro inside
    have hclose := follows_closers (.object :: inside)
    have hnull := follows_null (.object :: inside) (visible_closers (.object :: inside))
    have hmark : Passes (.colon inside, (State.colon inside).completion)
        (.value (.object :: inside), Bytes.ofString "null" ++ closers (.object :: inside)) :=
      passes_mark (by decide) rfl (headNot_cons.mpr (by decide))
    exact .head hmark (hnull.trans hclose)
  cases st with
  | value inside => exact (follows_null inside (visible_closers inside)).trans (follows_closers _)
  | elements inside =>
    exact .head (passes_mark (by decide) rfl (visible_closers inside)) (follows_closers inside)
  | members inside =>
    exact .head (passes_mark (by decide) rfl (visible_closers inside)) (follows_closers inside)
  | member inside =>
    have hkey : Passes (.member inside, (State.member inside).completion)
        (.colon inside, (State.colon inside).completion) :=
      passes_visible (.string ⟨[], rfl, rfl⟩) nofun rfl (headNot_cons.mpr (by decide))
    exact .head hkey (hcolon inside)
  | colon inside => exact hcolon inside
  | done inside => exact follows_closers inside

/-- What completes a text can take the place of anything in it. -/
theorem replaces_completion (st : State) (u : Bytes) : Replaces st.completion u := by
  cases st with
  | value | elements | members | member | colon =>
    apply replaces_of_headNot
    · exact headNot_cons.mpr (by decide)
    · exact headNot_cons.mpr (by decide)
  | done inside =>
    apply replaces_of_headNot (visible_closers inside)
    exact headNot_closers (by decide) (by decide) inside

end Backtrack.Json
