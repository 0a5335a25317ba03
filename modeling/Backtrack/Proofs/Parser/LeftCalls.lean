import Mathlib.Logic.Relation
import Backtrack.Proofs.Parser.Reading

/-!
# Matches that consume nothing

`Term.MayBeEmpty` says, without running anything, which terms may match without consuming, and errs
on the safe side: terms that are built from a value count as such. Whether a reference may is the
least answer that agrees with the definitions. A reference is on the left of a term if all that
stands in front of it may match without consuming, so that it may be followed where the term starts.

This module does NOT show that a run ends; it shows that a term which may not match without
consuming never does.
-/

namespace Backtrack

variable {ι : Type} {τ : ι → Type} {α β : Type}

/-- A regular expression that matches the empty text somewhere. -/
def Regex.MatchesNothing (r : Regex) : Prop :=
  ∃ text place, place ≤ text.size ∧ r.findEnd? text place = some place

namespace Term

/-- The term may match without consuming, where `empty` says which references may. -/
@[simp] def MayBeEmpty (empty : ι → Prop) : {α : Type} → Term τ α → Prop
  | _, satisfy _ | _, never | _, fault _ => False
  | _, literal text => text = []
  | _, pattern r => r.MatchesNothing
  | _, atEnd | _, always _ | _, optional _ _ | _, lookahead _ | _, not _ => True
  | _, and p q => p.MayBeEmpty empty ∧ q.MayBeEmpty empty
  | _, sequence _ ps => ∀ i, (ps i).MayBeEmpty empty
  | _, map _ p => p.MayBeEmpty empty
  | _, mapErr _ p => p.MayBeEmpty empty
  | _, filter _ p => p.MayBeEmpty empty
  | _, flatMap p _ => p.MayBeEmpty empty
  | _, or p q => p.MayBeEmpty empty ∨ q.MayBeEmpty empty
  | _, oneOf _ ps => ∃ i, (ps i).MayBeEmpty empty
  | _, repeated bounds p => bounds.least = 0 ∨ p.MayBeEmpty empty
  | _, commit _ p => p.MayBeEmpty empty
  | _, named _ p => p.MayBeEmpty empty
  | _, ref i => empty i

/-- The term has a reference to `j` on its left. -/
@[simp] def LeadsTo (empty : ι → Prop) (j : ι) : {α : Type} → Term τ α → Prop
  | _, satisfy _ | _, literal _ | _, pattern _ | _, atEnd | _, always _ | _, never
  | _, fault _ => False
  | _, and p q => p.LeadsTo empty j ∨ p.MayBeEmpty empty ∧ q.LeadsTo empty j
  | _, sequence _ ps => ∃ i, (∀ k < i, (ps k).MayBeEmpty empty) ∧ (ps i).LeadsTo empty j
  | _, map _ p => p.LeadsTo empty j
  | _, mapErr _ p => p.LeadsTo empty j
  | _, filter _ p => p.LeadsTo empty j
  | _, flatMap p f => p.LeadsTo empty j ∨ p.MayBeEmpty empty ∧ ∃ a, (f a).LeadsTo empty j
  | _, or p q => p.LeadsTo empty j ∨ q.LeadsTo empty j
  | _, oneOf _ ps => ∃ i, (ps i).LeadsTo empty j
  | _, repeated _ p => p.LeadsTo empty j
  | _, optional _ p => p.LeadsTo empty j
  | _, lookahead p => p.LeadsTo empty j
  | _, not p => p.LeadsTo empty j
  | _, commit _ p => p.LeadsTo empty j
  | _, named _ p => p.LeadsTo empty j
  | _, ref i => i = j

theorem MayBeEmpty.mono {empty empty' : ι → Prop} (h : ∀ i, empty i → empty' i) {t : Term τ α}
    (ht : t.MayBeEmpty empty) : t.MayBeEmpty empty' := by
  induction t with
  | satisfy | never | fault => exact ht
  | literal | pattern => exact ht
  | atEnd | always | optional | lookahead | not => trivial
  | and p q ihp ihq => exact ⟨ihp ht.1, ihq ht.2⟩
  | sequence n ps ih => exact fun i => ih i (ht i)
  | map f p ih => exact ih ht
  | mapErr f p ih => exact ih ht
  | filter condition p ih => exact ih ht
  | flatMap p f ihp ihf => exact ihp ht
  | or p q ihp ihq => exact ht.imp ihp ihq
  | oneOf n ps ih => exact ht.imp fun i hi => ih i hi
  | repeated bounds p ih => exact ht.imp_right ih
  | commit diagnostic p ih => exact ih ht
  | named name p ih => exact ih ht
  | ref i => exact h i ht

section Derived

variable {empty : ι → Prop} {j : ι} {p : Term τ α} {q : Term τ β} {ps : List (Term τ α)}

theorem exists_get {A : Type 1} {P : A → Prop} {as : List A} :
    (∃ i : Fin as.length, P (as.get i)) ↔ ∃ a ∈ as, P a := by
  constructor
  · intro ⟨i, hi⟩
    exact ⟨as.get i, List.get_mem as i, hi⟩
  · intro ⟨a, ha, h⟩
    obtain ⟨i, rfl⟩ := List.get_of_mem ha
    exact ⟨i, h⟩

@[simp] theorem leadsTo_choice :
    (choice ps).LeadsTo empty j ↔ ∃ p ∈ ps, LeadsTo empty j p :=
  exists_get (P := fun p : Term τ α => p.LeadsTo empty j)

@[simp] theorem mayBeEmpty_skipLeft :
    (p.skipLeft q).MayBeEmpty empty ↔ p.MayBeEmpty empty ∧ q.MayBeEmpty empty := Iff.rfl

@[simp] theorem leadsTo_skipLeft : (p.skipLeft q).LeadsTo empty j ↔
    p.LeadsTo empty j ∨ p.MayBeEmpty empty ∧ q.LeadsTo empty j := Iff.rfl

@[simp] theorem mayBeEmpty_skipRight :
    (p.skipRight q).MayBeEmpty empty ↔ p.MayBeEmpty empty ∧ q.MayBeEmpty empty := Iff.rfl

@[simp] theorem leadsTo_skipRight : (p.skipRight q).LeadsTo empty j ↔
    p.LeadsTo empty j ∨ p.MayBeEmpty empty ∧ q.LeadsTo empty j := Iff.rfl

@[simp] theorem not_mayBeEmpty_char {c : Char} : ¬ (char c : Term τ Char).MayBeEmpty empty := id

@[simp] theorem not_leadsTo_char {c : Char} : ¬ (char c : Term τ Char).LeadsTo empty j := id

@[simp] theorem mayBeEmpty_many0 : p.many0.MayBeEmpty empty := .inl rfl

@[simp] theorem leadsTo_many0 : p.many0.LeadsTo empty j ↔ p.LeadsTo empty j := Iff.rfl

@[simp] theorem mayBeEmpty_many1 : p.many1.MayBeEmpty empty ↔ p.MayBeEmpty empty :=
  or_iff_right Nat.one_ne_zero

@[simp] theorem leadsTo_many1 : p.many1.LeadsTo empty j ↔ p.LeadsTo empty j := Iff.rfl

@[simp] theorem mayBeEmpty_spaces : (spaces : Term τ (List Char)).MayBeEmpty empty := .inl rfl

@[simp] theorem not_leadsTo_spaces : ¬ (spaces : Term τ (List Char)).LeadsTo empty j := id

@[simp] theorem mayBeEmpty_trim : p.trim.MayBeEmpty empty ↔ p.MayBeEmpty empty := by
  show (spaces.MayBeEmpty empty ∧ p.MayBeEmpty empty) ∧ spaces.MayBeEmpty empty ↔ _
  rw [and_iff_left mayBeEmpty_spaces, and_iff_right mayBeEmpty_spaces]

@[simp] theorem leadsTo_trim : p.trim.LeadsTo empty j ↔ p.LeadsTo empty j := by
  show (spaces.LeadsTo empty j ∨ spaces.MayBeEmpty empty ∧ p.LeadsTo empty j) ∨
    (spaces.MayBeEmpty empty ∧ p.MayBeEmpty empty) ∧ spaces.LeadsTo empty j ↔ _
  rw [and_iff_right mayBeEmpty_spaces, or_iff_right not_leadsTo_spaces, or_iff_left]
  exact fun h => not_leadsTo_spaces h.2

@[simp] theorem leadsTo_value {b : β} : (p.value b).LeadsTo empty j ↔ p.LeadsTo empty j := Iff.rfl

@[simp] theorem leadsTo_expect {what : Bytes} :
    (p.expect what).LeadsTo empty j ↔ p.LeadsTo empty j := Iff.rfl

end Derived

end Term

namespace Definitions

variable (defs : Definitions τ)

/-- An answer to the question which references may match without consuming that agrees with the
definitions. -/
def Agrees (empty : ι → Prop) : Prop :=
  ∀ i body, defs i = some body → body.MayBeEmpty empty → empty i

/-- The least answer that agrees with the definitions. -/
def Empty (i : ι) : Prop := ∀ empty : ι → Prop, defs.Agrees empty → empty i

theorem agrees_empty : defs.Agrees defs.Empty := by
  intro i body hbody hempty empty hagrees
  apply hagrees i body hbody
  exact hempty.mono fun j hj => hj empty hagrees

def LeftCalls (i j : ι) : Prop := ∃ body, defs i = some body ∧ body.LeadsTo defs.Empty j

/-- Some definition leads back to itself on its left. -/
def LeftRecursive : Prop := ∃ i, Relation.TransGen defs.LeftCalls i i

variable {defs}

/-- Left calls that lead to a lower level do not lead back. -/
theorem not_leftRecursive_of_level (level : ι → Nat)
    (hlower : ∀ i j, defs.LeftCalls i j → level j < level i) : ¬ defs.LeftRecursive := by
  intro ⟨i, hcycle⟩
  have hpath : ∀ j, Relation.TransGen defs.LeftCalls i j → level j < level i := by
    intro j hj
    induction hj with
    | single h => exact hlower _ _ h
    | tail _ h ih => exact Nat.lt_trans (hlower _ _ h) ih
  exact Nat.lt_irrefl _ (hpath i hcycle)

end Definitions

/-- The run matches without consuming. -/
def Run.Idle (offset : Int) (r : Run α) : Prop := ∃ value, r.outcome = .success value offset

theorem Term.parser_within_lax {refs : (i : ι) → Parser (τ i)}
    (hrefs : ∀ i, (refs i).Within .lax) (t : Term τ α) : (t.parser refs).Within .lax :=
  have hkeeps : t.Keeps .lax fun _ => none := t.keeps_lax
  Term.parser_within (fun i _ => hrefs i) hkeeps

namespace Parser

variable {p : Parser α} {q : Parser β} {input : Input} {offset : Int}

theorem Within.of_success (hp : p.Within .lax) (h : 0 ≤ offset) (hsize : offset ≤ input.size)
    {a : α} {next : Int} (ha : (p input offset).outcome = .success a next) :
    offset ≤ next ∧ next ≤ input.size :=
  (hp input offset h hsize).matched a next ha

theorem not_idle_satisfy {condition : Char → Bool} :
    ¬ (satisfy condition input offset).Idle offset := by
  intro ⟨c, hc⟩
  unfold satisfy Input.char? at hc
  split at hc
  · cases hc
  split at hc
  · cases hc
  · dsimp only [Run.ofExcept] at hc
    split at hc
    · cases hc
    · rename_i hat
      have hwidth := (Utf8.at?_width hat).1
      split at hc
      · obtain ⟨_, hnext⟩ := Outcome.success.inj hc
        omega
      · cases hc

theorem idle_literal {text : Bytes} (hidle : (literal text input offset).Idle offset) :
    text = [] := by
  obtain ⟨value, hvalue⟩ := hidle
  unfold literal at hvalue
  cases hplace : input.place? offset with
  | error f =>
    rw [hplace] at hvalue
    cases hvalue
  | ok place =>
    rw [hplace] at hvalue
    dsimp only [Run.ofExcept] at hvalue
    split at hvalue
    · obtain ⟨_, hnext⟩ := Outcome.success.inj hvalue
      exact List.eq_nil_of_length_eq_zero (by omega)
    · cases hvalue

section Laws

variable (h : 0 ≤ offset) (hsize : offset ≤ input.size)
include h hsize

theorem idle_pattern {r : Regex} (hidle : (pattern r input offset).Idle offset) :
    r.MatchesNothing := by
  obtain ⟨value, hvalue⟩ := hidle
  unfold pattern at hvalue
  rw [input.place?_eq h hsize] at hvalue
  dsimp only [Run.ofExcept] at hvalue
  split at hvalue
  · rename_i stop hstop
    obtain ⟨_, hnext⟩ := Outcome.success.inj hvalue
    have heq : stop = offset.toNat := by omega
    rw [heq] at hstop
    unfold Input.size at hsize
    exact ⟨input.text, offset.toNat, by omega, hstop⟩
  · cases hvalue

theorem idle_onSuccess (hp : p.Within .lax) {f : α → Int → Run β}
    (hf : ∀ a middle b, offset ≤ middle → middle ≤ input.size →
      (f a middle).outcome = .success b offset → middle = offset)
    (hidle : ((p input offset).onSuccess f).Idle offset) :
    ∃ a, (p input offset).outcome = .success a offset ∧ (f a offset).Idle offset := by
  obtain ⟨b, hb⟩ := hidle
  obtain ⟨a, middle, ha, hb⟩ := Run.onSuccess_eq_success.mp hb
  obtain ⟨hmiddle, hmsize⟩ := hp.of_success h hsize ha
  have heq := hf a middle b hmiddle hmsize hb
  subst heq
  exact ⟨a, ha, b, hb⟩

omit hsize in
/-- What matches without consuming behind a match is met where the match began. -/
theorem eq_of_idle_next (hq : q.Within .lax) {middle : Int} {b : β} (hmiddle : offset ≤ middle)
    (hmsize : middle ≤ input.size) (hb : (q input middle).outcome = .success b offset) :
    middle = offset := by
  have hnext := hq.of_success (by omega) hmsize hb
  omega

theorem idle_and (hp : p.Within .lax) (hq : q.Within .lax)
    (hidle : (p.and q input offset).Idle offset) :
    (p input offset).Idle offset ∧ (q input offset).Idle offset := by
  obtain ⟨a, ha, v, hv⟩ := idle_onSuccess h hsize hp (by
    intro a middle v hmiddle hmsize hv
    obtain ⟨b, next, hb, hv⟩ := Run.onSuccess_eq_success.mp hv
    obtain ⟨_, rfl⟩ := Outcome.success.inj hv
    exact eq_of_idle_next h hq hmiddle hmsize hb) hidle
  obtain ⟨b, next, hb, hv⟩ := Run.onSuccess_eq_success.mp hv
  obtain ⟨_, rfl⟩ := Outcome.success.inj hv
  exact ⟨⟨a, ha⟩, b, hb⟩

theorem idle_flatMap (hp : p.Within .lax) {f : α → Parser β} (hf : ∀ a, (f a).Within .lax)
    (hidle : (p.flatMap f input offset).Idle offset) : (p input offset).Idle offset := by
  obtain ⟨a, ha, _⟩ := idle_onSuccess h hsize hp (by
    intro a middle v hmiddle hmsize hv
    obtain ⟨b, next, hb, hv⟩ := Run.onSuccess_eq_success.mp hv
    obtain ⟨_, rfl⟩ := Outcome.success.inj hv
    exact eq_of_idle_next h (hf a) hmiddle hmsize hb) hidle
  exact ⟨a, ha⟩

theorem idle_sequenceFrom {ps : List (Parser α)} (hps : ∀ p ∈ ps, p.Within .lax) (values : List α)
    (hidle : (sequenceFrom values ps input offset).Idle offset) :
    ∀ p ∈ ps, (p input offset).Idle offset := by
  induction ps generalizing values with
  | nil => exact fun _ hp => absurd hp List.not_mem_nil
  | cons p ps ih =>
    obtain ⟨hp, hps⟩ := List.forall_mem_cons.mp hps
    obtain ⟨a, ha, hrest⟩ := idle_onSuccess h hsize hp (by
      intro a middle v hmiddle hmsize hv
      exact eq_of_idle_next h (Within.sequenceFrom hps _) hmiddle hmsize hv) hidle
    exact List.forall_mem_cons.mpr ⟨⟨a, ha⟩, ih hps (a :: values) hrest⟩

omit h hsize in
theorem idle_oneOfFrom {ps : List (Parser α)} (furthest : Int)
    (hidle : (oneOfFrom furthest ps input offset).Idle offset) :
    ∃ p ∈ ps, (p input offset).Idle offset := by
  induction ps generalizing furthest with
  | nil =>
    obtain ⟨_, hv⟩ := hidle
    cases hv
  | cons p ps ih =>
    obtain ⟨v, hv⟩ := hidle
    rcases Run.onMiss_eq_success.mp hv with hv | ⟨missed, _, hv⟩
    · exact ⟨p, List.mem_cons_self, v, hv⟩
    · obtain ⟨q, hq, hidle⟩ := ih _ ⟨v, hv⟩
      exact ⟨q, List.mem_cons_of_mem p hq, hidle⟩

/-- A repetition with a mandatory match consumes nothing only if that match does not. -/
theorem idle_repeated (hp : p.Within .lax) {bounds : Bounds} (hleast : bounds.least ≠ 0)
    (hidle : (p.repeated bounds input offset).Idle offset) : (p input offset).Idle offset := by
  rw [repeated_eq] at hidle
  split at hidle
  case isFalse =>
    obtain ⟨_, hv⟩ := hidle
    cases hv
  obtain ⟨n, hn⟩ := Nat.exists_eq_succ_of_ne_zero hleast
  rw [hn] at hidle
  obtain ⟨a, ha, _⟩ := idle_onSuccess h hsize hp (by
    intro a middle v hmiddle hmsize hv
    have hrest := hp.repeatExactly (hp.further bounds) n [a]
    exact eq_of_idle_next h hrest hmiddle hmsize hv) hidle
  exact ⟨a, ha⟩

end Laws
end Parser

/-- A term that matches without consuming is one that may. -/
theorem Term.mayBeEmpty_of_idle {empty : ι → Prop} {refs : (i : ι) → Parser (τ i)}
    {input : Input} {offset : Int} (h : 0 ≤ offset) (hsize : offset ≤ input.size)
    (hwithin : ∀ i, (refs i).Within .lax)
    (hrefs : ∀ i, (refs i input offset).Idle offset → empty i) {t : Term τ α}
    (hidle : (t.parser refs input offset).Idle offset) : t.MayBeEmpty empty := by
  have hall : ∀ {α : Type} (t : Term τ α), (t.parser refs).Within .lax :=
    fun t => t.parser_within_lax hwithin
  induction t with
  | satisfy condition => exact Parser.not_idle_satisfy hidle
  | literal text => exact Parser.idle_literal hidle
  | pattern r => exact Parser.idle_pattern h hsize hidle
  | atEnd | always | optional | lookahead | not => trivial
  | never | fault =>
    obtain ⟨_, hv⟩ := hidle
    cases hv
  | and p q ihp ihq =>
    obtain ⟨hp, hq⟩ := Parser.idle_and h hsize (hall p) (hall q) hidle
    exact ⟨ihp hp, ihq hq⟩
  | sequence n ps ih =>
    intro i
    apply ih i
    apply Parser.idle_sequenceFrom h hsize _ [] hidle
    · exact List.mem_ofFn.mpr ⟨i, rfl⟩
    · intro p hp
      obtain ⟨k, rfl⟩ := List.mem_ofFn.mp hp
      exact hall (ps k)
  | map f p ih =>
    obtain ⟨v, hv⟩ := hidle
    obtain ⟨a, middle, ha, hv⟩ := Run.onSuccess_eq_success.mp hv
    obtain ⟨_, rfl⟩ := Outcome.success.inj hv
    exact ih ⟨a, ha⟩
  | mapErr f p ih =>
    obtain ⟨v, hv⟩ := hidle
    obtain ⟨a, middle, ha, hv⟩ := Run.onSuccess_eq_success.mp hv
    split at hv
    · obtain ⟨_, rfl⟩ := Outcome.success.inj hv
      exact ih ⟨a, ha⟩
    · exact absurd hv Reader.ofExcept_fatal_ne
  | filter condition p ih =>
    obtain ⟨v, hv⟩ := hidle
    obtain ⟨a, middle, ha, hv⟩ := Run.onSuccess_eq_success.mp hv
    split at hv
    · obtain ⟨_, rfl⟩ := Outcome.success.inj hv
      exact ih ⟨a, ha⟩
    · cases hv
  | flatMap p f ihp ihf =>
    exact ihp (Parser.idle_flatMap h hsize (hall p) (fun a => hall (f a)) hidle)
  | or p q ihp ihq =>
    obtain ⟨v, hv⟩ := hidle
    rcases Run.onMiss_eq_success.mp hv with hv | ⟨_, _, hv⟩
    · exact .inl (ihp ⟨v, hv⟩)
    · rcases Run.onMiss_eq_success.mp hv with hv | ⟨_, _, hv⟩
      · exact .inr (ihq ⟨v, hv⟩)
      · cases hv
  | oneOf n ps ih =>
    obtain ⟨p, hp, hidle⟩ := Parser.idle_oneOfFrom _ hidle
    obtain ⟨i, rfl⟩ := List.mem_ofFn.mp hp
    exact ⟨i, ih i hidle⟩
  | repeated bounds p ih =>
    by_cases hleast : bounds.least = 0
    · exact .inl hleast
    · exact .inr (ih (Parser.idle_repeated h hsize (hall p) hleast hidle))
  | commit diagnostic p ih =>
    obtain ⟨v, hv⟩ := hidle
    rcases Run.onMiss_eq_success.mp hv with hv | ⟨_, _, hv⟩
    · exact ih ⟨v, hv⟩
    · exact absurd hv Reader.ofExcept_fatal_ne
  | named name p ih => exact ih hidle
  | ref i => exact hrefs i hidle

/-- A reference that matches without consuming is one that may. -/
theorem Definitions.empty_of_idle {defs : Definitions τ} {input : Input} {offset : Int}
    (h : 0 ≤ offset) (hsize : offset ≤ input.size) (depth : Nat) (i : ι)
    (hidle : (defs.refsAt depth i input offset).Idle offset) : defs.Empty i := by
  induction depth generalizing i with
  | zero =>
    obtain ⟨_, hv⟩ := hidle
    cases hv
  | succ depth ih =>
    simp only [refsAt] at hidle
    cases hbody : defs i with
    | none =>
      rw [hbody] at hidle
      obtain ⟨_, hv⟩ := hidle
      cases hv
    | some body =>
      rw [hbody] at hidle
      dsimp only at hidle
      rw [parserAt_eq] at hidle
      apply defs.agrees_empty i body hbody
      apply Term.mayBeEmpty_of_idle h hsize _ ih hidle
      exact defs.refsAt_within_lax depth

end Backtrack
