import Mathlib.Algebra.BigOperators.Group.List.Basic
import Backtrack.Proofs.Parser.Reading

/-!
# Ordered choice

At one place of a text the outcomes of runs form a monoid. Of two outcomes the first counts that is
not a miss, and of two misses the later one; a miss at the place itself changes nothing, because no
run misses in front of where it started. A choice between two terms is a product in this monoid, and
a choice among many is the product of them all. So it does not matter how choices are nested, and a
common beginning can be taken out of the alternatives.

Traces are NOT compared here: a beginning that was taken out is run once, and not once for every
alternative.
-/

namespace Backtrack

namespace Outcome

variable {α β : Type}

/-- The first outcome, or the second if the first is a miss; of two misses the later one. -/
def orElse : Outcome α → Outcome α → Outcome α
  | miss m, miss n => miss (max m n)
  | miss _, other => other
  | first, _ => first

def andThen : Outcome α → (α → Int → Outcome β) → Outcome β
  | success a next, f => f a next
  | miss next, _ => miss next
  | fatal e, _ => fatal e
  | halted why, _ => halted why

def map (f : α → β) (o : Outcome α) : Outcome β := o.andThen fun a next => success (f a) next

theorem orElse_assoc (a b c : Outcome α) : (a.orElse b).orElse c = a.orElse (b.orElse c) := by
  cases a <;> cases b <;> cases c <;> simp [orElse, max_assoc]

theorem orElse_self (a : Outcome α) : a.orElse a = a := by
  cases a <;> simp [orElse]

theorem map_orElse (f : α → β) (a b : Outcome α) :
    (a.orElse b).map f = (a.map f).orElse (b.map f) := by
  cases a <;> cases b <;> rfl

/-- An outcome that is not a match counts once, however often it is tried. -/
theorem andThen_orElse (a : Outcome α) (f g : α → Int → Outcome β) :
    (a.andThen fun v next => (f v next).orElse (g v next)) =
      (a.andThen f).orElse (a.andThen g) := by
  cases a with
  | success | fatal | halted => rfl
  | miss next => exact (orElse_self (miss next)).symm

end Outcome

theorem Run.outcome_onSuccess {α β : Type} (r : Run α) (f : α → Int → Run β) :
    (r.onSuccess f).outcome = r.outcome.andThen fun a next => (f a next).outcome := by
  obtain ⟨outcome, trace⟩ := r
  cases outcome <;> rfl

/-- What trying one run and then another comes to. -/
theorem Run.outcome_or {α : Type} (r r' : Run α) :
    (r.onMiss fun missed =>
      r'.onMiss fun other => .miss (if other < missed then missed else other)).outcome =
      r.outcome.orElse r'.outcome := by
  obtain ⟨first, trace⟩ := r
  obtain ⟨second, trace'⟩ := r'
  cases first with
  | success | fatal | halted => rfl
  | miss m =>
    cases second with
    | success | fatal | halted => rfl
    | miss n =>
      have hmax : (if n < m then m else n) = max m n := by omega
      exact congrArg Outcome.miss hmax

/-- An outcome that is not a miss in front of the start. -/
def Answer (α : Type) (start : Int) :=
  { o : Outcome α // ∀ missed, o = .miss missed → start ≤ missed }

namespace Answer

variable {α : Type} {start : Int}

theorem orElse_bound {a b : Outcome α} (ha : ∀ missed, a = .miss missed → start ≤ missed)
    (hb : ∀ missed, b = .miss missed → start ≤ missed) (missed : Int)
    (h : a.orElse b = .miss missed) : start ≤ missed := by
  cases a with
  | miss m =>
    cases b with
    | miss n =>
      obtain rfl := Outcome.miss.inj h
      exact (ha m rfl).trans (Int.le_max_left m n)
    | success | fatal | halted => cases h
  | success | fatal | halted => cases h

theorem miss_orElse {a : Outcome α} (ha : ∀ missed, a = .miss missed → start ≤ missed) :
    (Outcome.miss start).orElse a = a := by
  cases a with
  | miss m => exact congrArg Outcome.miss (max_eq_right (ha m rfl))
  | success | fatal | halted => rfl

theorem orElse_miss {a : Outcome α} (ha : ∀ missed, a = .miss missed → start ≤ missed) :
    a.orElse (.miss start) = a := by
  cases a with
  | miss m => exact congrArg Outcome.miss (max_eq_left (ha m rfl))
  | success | fatal | halted => rfl

instance : Monoid (Answer α start) where
  mul a b := ⟨a.val.orElse b.val, orElse_bound a.property b.property⟩
  one := ⟨.miss start, fun _ h => Int.le_of_eq (Outcome.miss.inj h)⟩
  mul_assoc a b c := Subtype.ext (Outcome.orElse_assoc a.val b.val c.val)
  one_mul a := Subtype.ext (miss_orElse a.property)
  mul_one a := Subtype.ext (orElse_miss a.property)

theorem val_mul (a b : Answer α start) : (a * b).val = a.val.orElse b.val := rfl

/-- If all miss, then so does their product, at the latest of their places. -/
theorem prod_misses {as : List (Answer α start)} {misses : List Int}
    (h : List.Forall₂ (fun a missed => a.val = .miss missed) as misses) :
    as.prod.val = .miss (misses.foldr max start) := by
  induction h with
  | nil => rfl
  | cons ha _ ih => rw [List.prod_cons, val_mul, ha, ih, List.foldr_cons, Outcome.orElse]

end Answer

namespace Term

variable {ι : Type} {τ : ι → Type} {α : Type}

/-- The first of some terms, or else the nest of the others. -/
def orRight : List (Term τ α) → Term τ α
  | [] => never
  | [p] => p
  | p :: q :: ps => p.or (orRight (q :: ps))

/-- The nest of all terms but the last, or else the last. -/
def orLeft : List (Term τ α) → Term τ α
  | [] => never
  | p :: ps => ps.foldl or p

end Term

namespace Reader

variable {ι : Type} {τ : ι → Type} {α β γ : Type} {rd : Reader τ} {s u : Bytes}

/-- What the run of a term comes to where a suffix of the text begins. -/
def answer (rd : Reader τ) (s : Bytes) (t : Term τ α) : Answer α (rd.offsetOf s) :=
  ⟨rd.run t s, fun missed h => ((rd.run_within t s).missed missed h).1⟩

section Choice

variable {p q : Term τ α} {ps : List (Term τ α)}

theorem answer_never : rd.answer s (.never : Term τ α) = 1 := rfl

theorem run_or : rd.run (p.or q) s = (rd.run p s).orElse (rd.run q s) := Run.outcome_or _ _

theorem answer_or : rd.answer s (p.or q) = rd.answer s p * rd.answer s q := Subtype.ext run_or

/-- The latest miss so far counts as one alternative more. -/
theorem oneOfFrom_eq {furthest : Int} (h : rd.offsetOf s ≤ furthest) :
    (Parser.oneOfFrom furthest (ps.map fun p => p.parser rd.refs) rd.input
      (rd.offsetOf s)).outcome =
      (Outcome.miss furthest).orElse (ps.map (rd.answer s)).prod.val := by
  induction ps generalizing furthest with
  | nil => exact congrArg Outcome.miss (max_eq_left h).symm
  | cons p ps ih =>
    have hval : (rd.answer s p).val = (p.parser rd.refs rd.input (rd.offsetOf s)).outcome := rfl
    rw [List.map_cons, List.map_cons, List.prod_cons, Answer.val_mul, hval]
    unfold Parser.oneOfFrom Run.onMiss
    dsimp only
    split
    · rename_i missed hmiss
      have hmax : (if furthest < missed then missed else furthest) = max furthest missed := by
        omega
      rw [hmiss, ← Outcome.orElse_assoc, hmax]
      exact ih (h.trans (Int.le_max_left furthest missed))
    · rename_i hmiss
      cases houtcome : (p.parser rd.refs rd.input (rd.offsetOf s)).outcome with
      | miss missed => exact absurd houtcome (hmiss missed)
      | success | fatal | halted => rfl

theorem answer_choice : rd.answer s (.choice ps) = (ps.map (rd.answer s)).prod := by
  have hrun : rd.run (.choice ps) s = (Parser.oneOfFrom (rd.offsetOf s)
      (ps.map fun p => p.parser rd.refs) rd.input (rd.offsetOf s)).outcome := by
    unfold run
    rw [parser_choice]
    rfl
  apply Subtype.ext
  refine (hrun.trans (oneOfFrom_eq (Int.le_refl _))).trans ?_
  exact Answer.miss_orElse (ps.map (rd.answer s)).prod.property

theorem answer_orRight : rd.answer s (.orRight ps) = (ps.map (rd.answer s)).prod := by
  induction ps with
  | nil => rfl
  | cons p ps ih =>
    cases ps with
    | nil => exact (mul_one (rd.answer s p)).symm
    | cons q ps =>
      rw [Term.orRight, answer_or, ih]
      rfl

theorem answer_foldl_or (p : Term τ α) :
    rd.answer s (ps.foldl Term.or p) = rd.answer s p * (ps.map (rd.answer s)).prod := by
  induction ps generalizing p with
  | nil => exact (mul_one (rd.answer s p)).symm
  | cons q ps ih => rw [List.foldl_cons, ih, answer_or, mul_assoc, List.map_cons, List.prod_cons]

theorem answer_orLeft : rd.answer s (.orLeft ps) = (ps.map (rd.answer s)).prod := by
  cases ps with
  | nil => rfl
  | cons p ps => exact answer_foldl_or p

/-- A term that always misses can be added in front and behind. -/
theorem prod_of_never {qs : List (Term τ α)}
    (h : qs = ps ∨ qs = .never :: ps ∨ qs = ps ++ [.never]) :
    (qs.map (rd.answer s)).prod = (ps.map (rd.answer s)).prod := by
  rcases h with rfl | rfl | rfl
  · rfl
  · rw [List.map_cons, List.prod_cons, answer_never, one_mul]
  · rw [List.map_append, List.prod_append, List.map_singleton, List.prod_singleton, answer_never,
      mul_one]

theorem answer_flatten (pss : List (List (Term τ α))) :
    rd.answer s (.choice pss.flatten) = rd.answer s (.choice (pss.map .choice)) := by
  rw [answer_choice, answer_choice, List.map_flatten, List.prod_flatten, List.map_map,
    List.map_map]
  congr 2
  funext ps
  exact answer_choice.symm

end Choice

section Factoring

variable {p : Term τ α} {q q' t t' u u' : Term τ β}

/-- Two terms that come to the same wherever they are run. -/
def Alike (rd : Reader τ) (t u : Term τ α) : Prop := ∀ s, s <:+ rd.bytes → rd.run t s = rd.run u s

theorem alike_of_answer (h : ∀ s, rd.answer s t = rd.answer s u) : rd.Alike t u :=
  fun s _ => congrArg Subtype.val (h s)

theorem run_map {f : α → β} : rd.run (p.map f) s = (rd.run p s).map f := Run.outcome_onSuccess _ _

theorem run_and : rd.run (p.and q) s = (rd.run p s).andThen fun a middle =>
    (q.parser rd.refs rd.input middle).outcome.map (a, ·) := by
  refine (Run.outcome_onSuccess _ _).trans ?_
  exact congrArg _ (funext fun a => funext fun middle => Run.outcome_onSuccess _ _)

theorem Alike.trans {v : Term τ β} (h : rd.Alike t u) (h' : rd.Alike u v) : rd.Alike t v :=
  fun s hs => (h s hs).trans (h' s hs)

theorem Alike.symm (h : rd.Alike t u) : rd.Alike u t := fun s hs => (h s hs).symm

theorem Alike.map (h : rd.Alike t u) (f : β → γ) : rd.Alike (t.map f) (u.map f) := by
  intro s hs
  rw [run_map, run_map, h s hs]

theorem Alike.and (h : rd.Alike q q') (p : Term τ α) : rd.Alike (p.and q) (p.and q') := by
  intro s hs
  rw [run_and, run_and]
  cases hp : rd.run p s with
  | success a middle =>
    obtain ⟨m, hm, rfl⟩ := reads_of_success hs hp
    exact congrArg (Outcome.map (a, ·)) (h m hm.finish)
  | miss | fatal | halted => rfl

theorem Alike.or (h : rd.Alike t t') (h' : rd.Alike u u') :
    rd.Alike (t.or u) (t'.or u') := by
  intro s hs
  rw [run_or, run_or, h s hs, h' s hs]

theorem alike_map_or (f : β → γ) : rd.Alike ((q.or q').map f) ((q.map f).or (q'.map f)) := by
  intro s _
  rw [run_map, run_or, run_or, run_map, run_map, Outcome.map_orElse]

/-- What comes first is run once or twice, with the same outcome. -/
theorem alike_and_or : rd.Alike (p.and (q.or q')) ((p.and q).or (p.and q')) := by
  intro s _
  rw [run_or, run_and, run_and, run_and, ← Outcome.andThen_orElse]
  congr 1
  funext a middle
  rw [← Outcome.map_orElse]
  exact congrArg _ (Run.outcome_or _ _)

theorem alike_choice_one : rd.Alike (.choice [t]) t := by
  apply alike_of_answer
  intro s
  rw [answer_choice, List.map_singleton, List.prod_singleton]

theorem alike_choice_cons {ts : List (Term τ β)} :
    rd.Alike (.choice (t :: ts)) (t.or (.choice ts)) := by
  apply alike_of_answer
  intro s
  rw [answer_choice, answer_or, answer_choice, List.map_cons, List.prod_cons]

/-- A context that respects `Alike` and distributes over two alternatives distributes over any
number of them but none. -/
theorem alike_choice {F : Term τ β → Term τ γ}
    (hcongr : ∀ q q', rd.Alike q q' → rd.Alike (F q) (F q'))
    (hor : ∀ q q', rd.Alike (F (q.or q')) ((F q).or (F q'))) {qs : List (Term τ β)}
    (hqs : qs ≠ []) : rd.Alike (F (.choice qs)) (.choice (qs.map F)) := by
  induction qs with
  | nil => exact absurd rfl hqs
  | cons q qs ih =>
    cases qs with
    | nil => exact (hcongr _ _ alike_choice_one).trans alike_choice_one.symm
    | cons q' qs =>
      have hrest := ih (List.cons_ne_nil q' qs)
      refine (hcongr _ _ alike_choice_cons).trans ((hor _ _).trans ?_)
      exact (Alike.or (fun _ _ => rfl) hrest).trans alike_choice_cons.symm

theorem alike_and_choice {qs : List (Term τ β)} (hqs : qs ≠ []) :
    rd.Alike (p.and (.choice qs)) (.choice (qs.map p.and)) :=
  alike_choice (fun _ _ h => h.and p) (fun _ _ => alike_and_or) hqs

theorem alike_skipLeft_choice {qs : List (Term τ β)} (hqs : qs ≠ []) :
    rd.Alike (p.skipLeft (.choice qs)) (.choice (qs.map p.skipLeft)) :=
  alike_choice (fun _ _ h => (h.and p).map Prod.snd)
    (fun _ _ => (alike_and_or.map Prod.snd).trans (alike_map_or Prod.snd)) hqs

theorem alike_skipRight_choice {qs : List (Term τ β)} (hqs : qs ≠ []) :
    rd.Alike (p.skipRight (.choice qs)) (.choice (qs.map p.skipRight)) :=
  alike_choice (fun _ _ h => (h.and p).map Prod.fst)
    (fun _ _ => (alike_and_or.map Prod.fst).trans (alike_map_or Prod.fst)) hqs

end Factoring

end Reader

namespace Definitions

variable {ι : Type} {τ : ι → Type} {α β : Type} (defs : Definitions τ)

/-- The run of a term at an offset ends with this outcome. -/
def ComesTo (t : Term τ α) (input : Input) (offset : Int) (o : Outcome α) : Prop :=
  ∃ r, defs.Yields t input offset r ∧ r.outcome = o

/-- Two terms come to the same at every offset inside every text. -/
def Same (t u : Term τ α) : Prop := ∀ input offset, 0 ≤ offset → offset ≤ input.size →
  ∀ o, defs.ComesTo t input offset o ↔ defs.ComesTo u input offset o

variable {defs} {input : Input} {offset : Int}

theorem comesTo_iff {t : Term τ α} {o : Outcome α} : defs.ComesTo t input offset o ↔
    o ≠ .halted .outOfFuel ∧ ∃ depth, (defs.parserAt depth t input offset).outcome = o := by
  constructor
  · rintro ⟨_, ⟨hfuel, depth, rfl⟩, rfl⟩
    exact ⟨hfuel, depth, rfl⟩
  · rintro ⟨hfuel, depth, rfl⟩
    exact ⟨_, ⟨hfuel, depth, rfl⟩, rfl⟩

theorem exists_run_eq (defs : Definitions τ) (hstart : 0 ≤ offset) (hend : offset ≤ input.size) :
    ∃ s, s <:+ input.text.toList ∧ (defs.reader 0 input).offsetOf s = offset ∧
      ∀ (depth : Nat) {α : Type} (t : Term τ α),
        (defs.reader depth input).run t s = (defs.parserAt depth t input offset).outcome := by
  have hsize : input.text.size = input.size := rfl
  have hwhole : Text.placeOf input.text input.text.toList = 0 := Text.placeOf_toList
  obtain ⟨s, hs, hplace⟩ : ∃ s, s <:+ input.text.toList ∧
      Text.placeOf input.text s = offset.toNat :=
    Text.exists_suffix List.suffix_rfl (by omega) (by omega)
  have hoffset (depth : Nat) : (defs.reader depth input).offsetOf s = offset := by
    have heq : (defs.reader depth input).offsetOf s = (Text.placeOf input.text s : Nat) := rfl
    omega
  refine ⟨s, hs, hoffset 0, fun depth α t => ?_⟩
  unfold Reader.run
  rw [hoffset, parserAt_eq]
  rfl

theorem same_of_alike {t u : Term τ α}
    (h : ∀ depth input, (defs.reader depth input).Alike t u) : defs.Same t u := by
  intro input offset hstart hend o
  obtain ⟨s, hs, -, hrun⟩ := exists_run_eq defs hstart hend
  have heq (depth : Nat) : (defs.parserAt depth t input offset).outcome =
      (defs.parserAt depth u input offset).outcome := by
    rw [← hrun, ← hrun, h depth input s hs]
  rw [comesTo_iff, comesTo_iff]
  simp only [heq]

theorem same_of_answer {t u : Term τ α}
    (h : ∀ depth input s, (defs.reader depth input).answer s t =
      (defs.reader depth input).answer s u) : defs.Same t u :=
  same_of_alike fun depth input => Reader.alike_of_answer (h depth input)

/-- Some terms that all miss do so within one depth. -/
theorem exists_depth_of_misses {ps : List (Term τ α)} {misses : List Int}
    (h : List.Forall₂ (fun p missed => defs.ComesTo p input offset (.miss missed)) ps misses) :
    ∃ depth, List.Forall₂ (fun p missed =>
      (defs.parserAt depth p input offset).outcome = .miss missed) ps misses := by
  induction h with
  | nil => exact ⟨0, .nil⟩
  | @cons p missed ps misses hp _ ih =>
    obtain ⟨_, m, hm⟩ := comesTo_iff.mp hp
    obtain ⟨n, hn⟩ := ih
    have hdeeper {depth : Nat} (hle : depth ≤ max m n) {p : Term τ α} {missed : Int}
        (h : (defs.parserAt depth p input offset).outcome = .miss missed) :
        (defs.parserAt (max m n) p input offset).outcome = .miss missed := by
      rw [defs.parserAt_eq_of_le hle p input offset (by simp [h])]
      exact h
    refine ⟨max m n, .cons (hdeeper (Nat.le_max_left m n) hm) ?_⟩
    exact hn.imp fun _ _ => hdeeper (Nat.le_max_right m n)

/-- If all alternatives miss, the latest place where one of them does counts. -/
theorem choice_misses {ps : List (Term τ α)} {misses : List Int} (hstart : 0 ≤ offset)
    (hend : offset ≤ input.size)
    (h : List.Forall₂ (fun p missed => defs.ComesTo p input offset (.miss missed)) ps misses) :
    defs.ComesTo (.choice ps) input offset (.miss (misses.foldr max offset)) := by
  obtain ⟨s, -, hoffset, hrun⟩ := exists_run_eq defs hstart hend
  obtain ⟨depth, hmisses⟩ := exists_depth_of_misses h
  refine comesTo_iff.mpr ⟨nofun, depth, ?_⟩
  have hanswers : List.Forall₂ (fun a missed => a.val = .miss missed)
      (ps.map ((defs.reader depth input).answer s)) misses := by
    rw [List.forall₂_map_left_iff]
    exact hmisses.imp fun p missed h => (hrun depth p).trans h
  have hchoice : (defs.reader depth input).run (.choice ps) s =
      (ps.map ((defs.reader depth input).answer s)).prod.val :=
    congrArg Subtype.val Reader.answer_choice
  rw [← hrun, hchoice, Answer.prod_misses hanswers]
  exact congrArg (fun start => Outcome.miss (misses.foldr max start)) hoffset

/-- Choices form a monoid. A choice among some terms comes to what their nests come to, however a
term that always misses is added; grouping does not matter, and if all miss, the latest place
counts. -/
theorem ordered_choice (defs : Definitions τ) (ps : List (Term τ α)) :
    (∀ qs, qs = ps ∨ qs = .never :: ps ∨ qs = ps ++ [.never] →
      defs.Same (.choice ps) (.orRight qs) ∧ defs.Same (.choice ps) (.orLeft qs)) ∧
    (∀ p q r : Term τ α, defs.Same ((p.or q).or r) (p.or (q.or r))) ∧
    (∀ p : Term τ α, defs.Same (Term.never.or p) p ∧ defs.Same (p.or .never) p) ∧
    (∀ pss : List (List (Term τ α)),
      defs.Same (.choice pss.flatten) (.choice (pss.map .choice))) ∧
    ∀ input offset misses, 0 ≤ offset → offset ≤ input.size →
      List.Forall₂ (fun p missed => defs.ComesTo p input offset (.miss missed)) ps misses →
      defs.ComesTo (.choice ps) input offset (.miss (misses.foldr max offset)) := by
  refine ⟨fun qs hqs => ⟨?_, ?_⟩, fun p q r => ?_, fun p => ⟨?_, ?_⟩, fun pss => ?_, ?_⟩
  · refine same_of_answer fun depth input s => ?_
    rw [Reader.answer_choice, Reader.answer_orRight, Reader.prod_of_never hqs]
  · refine same_of_answer fun depth input s => ?_
    rw [Reader.answer_choice, Reader.answer_orLeft, Reader.prod_of_never hqs]
  · refine same_of_answer fun depth input s => ?_
    simp only [Reader.answer_or, mul_assoc]
  · refine same_of_answer fun depth input s => ?_
    rw [Reader.answer_or, Reader.answer_never, one_mul]
  · refine same_of_answer fun depth input s => ?_
    rw [Reader.answer_or, Reader.answer_never, mul_one]
  · exact same_of_answer fun depth input s => Reader.answer_flatten pss
  · exact fun input offset misses hstart hend => choice_misses hstart hend

theorem ordered_choice_digitLists :
    digitLists.ComesTo
      (.choice [.ref (), (Term.digit.skipRight (.char '.')).value 0, .never])
      (Input.ofBytes [] "1,2") 0 (.miss 1) := by
  obtain ⟨-, -, -, -, hmisses⟩ := ordered_choice digitLists
    [.ref (), (Term.digit.skipRight (.char '.')).value 0, .never]
  refine hmisses (Input.ofBytes [] "1,2") 0 [0, 1, 0] (by decide) (by decide) ?_
  have href : digitLists.ComesTo (.ref ()) (Input.ofBytes [] "1,2") 0 (.miss 0) :=
    comesTo_iff.mpr ⟨nofun, 1, rfl⟩
  have hdigit : digitLists.ComesTo ((Term.digit.skipRight (.char '.')).value 0)
      (Input.ofBytes [] "1,2") 0 (.miss 1) := comesTo_iff.mpr ⟨nofun, 0, rfl⟩
  have hnever : digitLists.ComesTo (.never : Term _ Nat) (Input.ofBytes [] "1,2") 0 (.miss 0) :=
    comesTo_iff.mpr ⟨nofun, 0, rfl⟩
  exact .cons href (.cons hdigit (.cons hnever .nil))

/-- A common beginning of some alternatives can be taken out, whether its value counts or not. -/
theorem left_factoring (defs : Definitions τ) (p : Term τ α) (qs : List (Term τ β))
    (hqs : qs ≠ []) :
    defs.Same (p.and (.choice qs)) (.choice (qs.map p.and)) ∧
    defs.Same (p.skipLeft (.choice qs)) (.choice (qs.map p.skipLeft)) ∧
    defs.Same (p.skipRight (.choice qs)) (.choice (qs.map p.skipRight)) :=
  ⟨same_of_alike fun _ _ => Reader.alike_and_choice hqs,
    same_of_alike fun _ _ => Reader.alike_skipLeft_choice hqs,
    same_of_alike fun _ _ => Reader.alike_skipRight_choice hqs⟩

/-- A list of digits is read in front of each alternative, and both miss behind it. -/
theorem left_factoring_digitLists :
    digitLists.ComesTo ((Term.ref ()).and (.choice [.char ';', .char '.']))
      (Input.ofBytes [] "[1,2],[3]") 0 (.miss 5) ∧
    digitLists.ComesTo
      (.choice [(Term.ref ()).and (.char ';'), (Term.ref ()).and (.char '.')])
      (Input.ofBytes [] "[1,2],[3]") 0 (.miss 5) := by
  have h : digitLists.ComesTo ((Term.ref ()).and (.choice [.char ';', .char '.']))
      (Input.ofBytes [] "[1,2],[3]") 0 (.miss 5) := comesTo_iff.mpr ⟨nofun, 2, rfl⟩
  obtain ⟨hsame, -, -⟩ := left_factoring digitLists (.ref ()) [.char ';', .char '.'] (by simp)
  exact ⟨h, (hsame _ 0 (by decide) (by decide) _).mp h⟩

end Definitions

end Backtrack
