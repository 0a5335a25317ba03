import Backtrack.Proofs.Parser.Tracing

/-!
# What an evaluation comes to

An evaluation runs a parser from the start of the text, and what it comes to is decided by the
outcome of that run. Since the offsets of a run lie inside the text, what is reported of them is a
place of the text: the position has the offset itself, and the excerpt tells whether it is the end.

This module does NOT say when a run ends.
-/

namespace Backtrack

def Setting.filename? : Setting → Option Bytes
  | filename name => some name
  | allowTrailing | trace | failing _ => none

/-- The name that some requests give to the text: the last one counts. -/
def requestedName (requests : List Setting) : Bytes :=
  (requests.filterMap Setting.filename?).getLastD []

theorem Settings.foldlM_apply {requests : List Setting}
    (h : ∀ error, .failing error ∉ requests) (s : Settings) :
    ∃ settings, requests.foldlM apply s = .ok settings ∧
      settings.filename = (requests.filterMap Setting.filename?).getLastD s.filename ∧
      (settings.allowTrailing = true ↔ s.allowTrailing = true ∨ .allowTrailing ∈ requests) := by
  induction requests generalizing s with
  | nil => exact ⟨s, rfl, rfl, by simp⟩
  | cons request requests ih =>
    have hrest : ∀ error, .failing error ∉ requests :=
      fun error hmem => h error (List.mem_cons_of_mem request hmem)
    cases request with
    | filename name =>
      obtain ⟨settings, hfold, hname, htrailing⟩ := ih hrest { s with filename := name }
      refine ⟨settings, hfold, ?_, by simpa using htrailing⟩
      rw [hname]
      exact List.getLastD_cons.symm
    | allowTrailing =>
      obtain ⟨settings, hfold, hname, htrailing⟩ := ih hrest { s with allowTrailing := true }
      exact ⟨settings, hfold, hname, by simpa using htrailing⟩
    | trace =>
      obtain ⟨settings, hfold, hname, htrailing⟩ := ih hrest { s with trace := true }
      exact ⟨settings, hfold, hname, by simpa using htrailing⟩
    | failing error => exact absurd List.mem_cons_self (h error)

theorem Settings.ofList_eq_ok {requests : List Setting} (h : ∀ error, .failing error ∉ requests) :
    ∃ settings, ofList requests = .ok settings ∧ settings.filename = requestedName requests ∧
      (settings.allowTrailing = true ↔ .allowTrailing ∈ requests) := by
  obtain ⟨settings, hfold, hname, htrailing⟩ := foldlM_apply h {}
  exact ⟨settings, hfold, hname, by simpa using htrailing⟩

namespace Input

variable {input : Input} {offset : Int} {near : Bytes}

theorem position_offset (h : 0 ≤ offset) (hsize : offset ≤ input.size) :
    (input.position offset).offset = offset := by
  unfold position
  dsimp only
  omega

theorem head?_excerpt (text : Bytes) : (excerpt text).head? = some 34 := by
  unfold excerpt
  dsimp only
  split <;> rfl

/-- An excerpt says that the text has ended only at its end. -/
theorem near_eq_endMark_iff (h : input.near offset = .ok near) :
    near = endMark ↔ input.size ≤ offset := by
  unfold Input.near at h
  split at h
  · rename_i hsize
    cases h
    exact iff_of_true rfl hsize
  · rename_i hsize
    split at h
    · cases h
    · cases h
      refine iff_of_false (fun heq => ?_) hsize
      have hhead := congrArg List.head? heq
      rw [head?_excerpt] at hhead
      exact absurd hhead (by decide)

end Input

theorem unexpectedMessage_eq_iff {near : Bytes} :
    unexpectedMessage near false = "no match at end of input" ↔ near = Input.endMark := by
  unfold unexpectedMessage
  rw [if_neg Bool.false_ne_true]
  split
  · rename_i heq
    exact iff_of_true rfl heq
  · rename_i hne
    refine iff_of_false (fun heq => ?_) hne
    -- The two messages differ behind "no match ", where the excerpt has not begun yet.
    have hbyte := congrArg (fun message : Bytes => message[9]?) heq
    simp only [List.append_assoc] at hbyte
    rw [List.getElem?_append_left (by decide)] at hbyte
    exact absurd hbyte (by decide)

theorem ParseError.toError_inj {e e' : ParseError} (h : e.toError = e'.toError) : e = e' := by
  cases e
  cases e'
  cases h
  rfl

namespace Outcome

variable {α : Type} {input : Input}

theorem report_eq {offset : Int} {near : Bytes} (h : input.near offset = .ok near)
    (trailing : Bool) :
    (judge.report input offset trailing : Except Halt (Except Error α)) =
      .ok (.error (.unexpected (input.position offset) near trailing)) := by
  unfold judge.report Input.unexpected
  rw [h]
  rfl

/-- What an outcome is judged to be. A match of less than the whole text has to be allowed. -/
inductive Judged (input : Input) (allowed : Prop) :
    Outcome α → Except Halt (Except Error α) → Prop where
  | value {value : α} {next : Int} (h : next = input.size ∨ allowed) :
    Judged input allowed (.success value next) (.ok (.ok value))
  | trailing {value : α} {next : Int} {near : Bytes} (hnext : next < input.size) (h : ¬ allowed)
      (hposition : (input.position next).offset = next) (hnear : input.near next = .ok near) :
    Judged input allowed (.success value next)
      (.ok (.error (.unexpected (input.position next) near true)))
  | unmatched {next : Int} {near : Bytes} (hnext : next ≤ input.size)
      (hposition : (input.position next).offset = next) (hnear : input.near next = .ok near) :
    Judged input allowed (.miss next)
      (.ok (.error (.unexpected (input.position next) near false)))
  | fatal {e : ParseError} : Judged input allowed (.fatal e) (.ok (.error e.toError))
  | halted {why : Halt} : Judged input allowed (.halted why) (.error why)

theorem judged {c : Contract} {r : Run α} (h : r.Within c input 0) (allowTrailing : Bool) :
    r.outcome.Judged input (allowTrailing = true) (r.outcome.judge input allowTrailing) := by
  cases houtcome : r.outcome with
  | success value next =>
    obtain ⟨hstart, hend⟩ := h.matched value next houtcome
    unfold judge
    dsimp only
    split
    · rename_i hshort
      obtain ⟨near, hnear⟩ := input.near_isOk hstart
      rw [report_eq hnear]
      refine .trailing (by omega) ?_ (Input.position_offset hstart hend) hnear
      rw [hshort.2]
      exact Bool.false_ne_true
    · rename_i hwhole
      refine .value ?_
      by_cases hnext : next = input.size
      · exact .inl hnext
      · exact .inr ((Bool.not_eq_false _).mp fun hallow => hwhole ⟨hnext, hallow⟩)
  | miss next =>
    obtain ⟨hstart, hend⟩ := h.missed next houtcome
    obtain ⟨near, hnear⟩ := input.near_isOk hstart
    unfold judge
    dsimp only
    rw [report_eq hnear]
    exact .unmatched hend (Input.position_offset hstart hend) hnear
  | fatal e => exact .fatal
  | halted why => exact .halted

namespace Judged

variable {allowed : Prop} {outcome : Outcome α} {result : Except Halt (Except Error α)}
  (h : outcome.Judged input allowed result)
include h

theorem value_iff (value : α) : result = .ok (.ok value) ↔
    ∃ next, outcome = .success value next ∧ (next = input.size ∨ allowed) := by
  cases h with
  | value hmatched =>
    constructor
    · rintro ⟨⟩
      exact ⟨_, rfl, hmatched⟩
    · rintro ⟨_, ⟨⟩, _⟩
      rfl
  | trailing hnext hallowed =>
    refine ⟨nofun, ?_⟩
    rintro ⟨_, ⟨⟩, hmatched | hmatched⟩
    · omega
    · exact absurd hmatched hallowed
  | unmatched | fatal | halted => exact ⟨nofun, nofun⟩

theorem trailing_iff : (∃ position near, result = .ok (.error (.unexpected position near true))) ↔
    ∃ value next, outcome = .success value next ∧ next < input.size ∧ ¬ allowed := by
  cases h with
  | value hmatched =>
    refine ⟨nofun, ?_⟩
    rintro ⟨_, _, ⟨⟩, hnext, hallowed⟩
    rcases hmatched with hmatched | hmatched
    · omega
    · exact absurd hmatched hallowed
  | trailing hnext hallowed => exact iff_of_true ⟨_, _, rfl⟩ ⟨_, _, rfl, hnext, hallowed⟩
  | unmatched | fatal | halted => exact ⟨nofun, nofun⟩

theorem of_trailing {position : Position} {near : Bytes}
    (hresult : result = .ok (.error (.unexpected position near true))) :
    (∃ value, outcome = .success value position.offset) ∧ position.offset < input.size ∧
      position = input.position position.offset ∧ input.near position.offset = .ok near ∧
      near ≠ Input.endMark := by
  cases h with
  | trailing hnext hallowed hposition hnear =>
    cases hresult
    rw [hposition]
    refine ⟨⟨_, rfl⟩, hnext, rfl, hnear, fun hend => ?_⟩
    have hsize := (Input.near_eq_endMark_iff hnear).mp hend
    omega
  | value | unmatched | fatal | halted => cases hresult

theorem unmatched_iff : (∃ position near, result = .ok (.error (.unexpected position near false))) ↔
    ∃ next, outcome = .miss next := by
  cases h with
  | unmatched => exact iff_of_true ⟨_, _, rfl⟩ ⟨_, rfl⟩
  | value | trailing | fatal | halted => exact ⟨nofun, nofun⟩

theorem of_unmatched {position : Position} {near : Bytes}
    (hresult : result = .ok (.error (.unexpected position near false))) :
    outcome = .miss position.offset ∧ position = input.position position.offset ∧
      input.near position.offset = .ok near ∧
      (unexpectedMessage near false = "no match at end of input" ↔
        position.offset = input.size) := by
  cases h with
  | unmatched hnext hposition hnear =>
    cases hresult
    rw [hposition, unexpectedMessage_eq_iff, Input.near_eq_endMark_iff hnear]
    exact ⟨rfl, rfl, hnear, by omega⟩
  | value | trailing | fatal | halted => cases hresult

theorem fatal_iff (e : ParseError) :
    result = .ok (.error e.toError) ↔ outcome = .fatal e := by
  cases h with
  | fatal =>
    constructor
    · intro hresult
      rw [ParseError.toError_inj (Except.error.inj (Except.ok.inj hresult))]
    · rintro ⟨⟩
      rfl
  | value | trailing | unmatched | halted => exact ⟨nofun, nofun⟩

theorem halted_iff (why : Halt) : result = .error why ↔ outcome = .halted why := by
  cases h with
  | halted =>
    constructor
    · rintro ⟨⟩
      rfl
    · rintro ⟨⟩
      rfl
  | value | trailing | unmatched | fatal => exact ⟨nofun, nofun⟩

end Judged

end Outcome

section Evaluations

variable {ι : Type} {τ : ι → Type} {α : Type}

theorem Parser.evaluate_result {p : Parser α} {text : Bytes} {requests : List Setting}
    {settings : Settings} (h : Settings.ofList requests = .ok settings) :
    (p.evaluate text requests).result =
      (p (Input.ofBytes settings.filename text) 0).outcome.judge
        (Input.ofBytes settings.filename text) settings.allowTrailing := by
  unfold evaluate
  rw [h]

theorem Parser.evaluate_judged {p : Parser α} (hp : p.Within .lax) (text : Bytes)
    {requests : List Setting} (h : ∀ error, .failing error ∉ requests) :
    (p (Input.ofBytes (requestedName requests) text) 0).outcome.Judged
      (Input.ofBytes (requestedName requests) text) (.allowTrailing ∈ requests)
      (p.evaluate text requests).result := by
  obtain ⟨settings, hsettings, hname, htrailing⟩ := Settings.ofList_eq_ok h
  rw [evaluate_result hsettings, ← hname, ← propext htrailing]
  exact Outcome.judged (hp _ 0 (Int.le_refl 0) (Int.natCast_nonneg _)) _

namespace Definitions

variable {defs : Definitions τ}

/-- An evaluation comes to a value if the run from the start of the text matches all of it, or less
where that is allowed; it complains about trailing text if the run matches less where that is not
allowed, about input that does not match if the run misses, and comes to the error of the run if the
run is aborted. A complaint is placed where the run ended, its excerpt is that of the place, and it
speaks of the end of the text only there. If the grammar breaks nothing and the run ends, then so
does the evaluation, with or without a writer of traces. Bytes and readers are evaluated like texts;
the name of a reader counts like a request in front of all others. -/
theorem evaluate_classifies (bound : Input → Nat) (t : Term τ α) (text : Bytes)
    {requests : List Setting} (hrequests : ∀ error, .failing error ∉ requests) :
    let p : Parser α := fun input offset => defs.parserAt (bound input) t input offset
    let input := Input.ofBytes (requestedName requests) text
    let outcome := (p input 0).outcome
    let result := (p.evaluate text requests).result
    (∀ value, result = .ok (.ok value) ↔
      ∃ next, outcome = .success value next ∧ (next = text.length ∨ .allowTrailing ∈ requests)) ∧
    ((∃ position near, result = .ok (.error (.unexpected position near true))) ↔
      ∃ value next, outcome = .success value next ∧ next < text.length ∧
        .allowTrailing ∉ requests) ∧
    (∀ position near, result = .ok (.error (.unexpected position near true)) →
      (∃ value, outcome = .success value position.offset) ∧ position.offset < text.length ∧
      position = input.position position.offset ∧ input.near position.offset = .ok near ∧
      near ≠ Input.endMark) ∧
    ((∃ position near, result = .ok (.error (.unexpected position near false))) ↔
      ∃ next, outcome = .miss next) ∧
    (∀ position near, result = .ok (.error (.unexpected position near false)) →
      outcome = .miss position.offset ∧ position = input.position position.offset ∧
      input.near position.offset = .ok near ∧
      (unexpectedMessage near false = "no match at end of input" ↔
        position.offset = text.length)) ∧
    (∀ e : ParseError, result = .ok (.error e.toError) ↔ outcome = .fatal e) ∧
    (∀ why, result = .error why ↔ outcome = .halted why) ∧
    (t.Keeps .strict defs → (∀ i body, defs i = some body → body.Keeps .strict defs) →
      outcome ≠ .halted .outOfFuel → ∀ why, result ≠ .error why) ∧
    (∀ writes, (Parser.evaluate (fun input offset => defs.tellerAt writes (bound input) t input
      offset) text requests).result = result) ∧
    p.evaluateBytes text.toArray requests = p.evaluate text requests ∧
    ∀ name, p.evaluateReader name (.ok text) requests =
      p.evaluate text (if name = [] then requests else .filename name :: requests) := by
  intro p input outcome result
  have hsize : input.size = text.length := by simp [input, Input.size, Input.ofBytes]
  have hwithin : p.Within .lax := fun input =>
    parserAt_within trivial (fun _ body _ => body.keeps_lax) t.keeps_lax (bound input) input
  have hjudged : outcome.Judged input (.allowTrailing ∈ requests) result :=
    Parser.evaluate_judged hwithin text hrequests
  rw [← hsize]
  refine ⟨hjudged.value_iff, hjudged.trailing_iff, fun _ _ => hjudged.of_trailing,
    hjudged.unmatched_iff, fun _ _ => hjudged.of_unmatched, hjudged.fatal_iff, hjudged.halted_iff,
    ?_, ?_, rfl, ?_⟩
  · intro ht hdefs hends why hresult
    have hhalted := (hjudged.halted_iff why).mp hresult
    have hstrict := parserAt_within (c := .strict) rfl hdefs ht (bound input) input 0
      (Int.le_refl 0) (Int.natCast_nonneg _)
    have hwhy : why = .outOfFuel := hstrict.broken why hhalted
    exact hends (hwhy ▸ hhalted)
  · intro writes
    refine Parser.evaluate_congr (fun filename => ?_) requests
    have htells := defs.tellerAt_tells (bound (Input.ofBytes filename text)) t
      (Input.ofBytes filename text) 0 (Int.le_refl 0) (Int.natCast_nonneg _)
    cases writes with
    | true => exact congrArg Run.outcome htells.told
    | false => exact (congrArg Run.outcome htells.quiet).trans rfl
  · intro name
    unfold Parser.evaluateReader
    simp only [List.isEmpty_iff]

/-- The list ends before the text does, in front of an `x`. -/
theorem evaluate_classifies_digitLists :
    (∀ error, Setting.failing error ∉ [Setting.trace, .filename "f"]) ∧
    ∃ position near,
      ((digitLists.parserAt 3 (.ref ())).evaluate "[1,[2]]x" [.trace, .filename "f"]).result =
        .ok (.error (.unexpected position near true)) ∧
      position.offset = 7 ∧ position.filename = "f" ∧ near ≠ Input.endMark := by
  have hrequests : ∀ error, Setting.failing error ∉ [Setting.trace, .filename "f"] := by simp
  obtain ⟨_, htrailing, hplace, _⟩ := @evaluate_classifies _ _ _ digitLists (fun _ => 3)
    (.ref ()) "[1,[2]]x" _ hrequests
  obtain ⟨value, next, hmatched, hnext⟩ : ∃ value next, (digitLists.parserAt 3 (.ref ())
      (Input.ofBytes "f" "[1,[2]]x") 0).outcome = .success value next ∧ next = 7 := ⟨_, _, rfl, rfl⟩
  subst hnext
  obtain ⟨position, near, hresult⟩ :=
    htrailing.mpr ⟨value, 7, hmatched, by decide, by simp⟩
  obtain ⟨⟨value', hoffset⟩, _, hposition, _, hnear⟩ := hplace position near hresult
  refine ⟨hrequests, position, near, hresult, ?_, ?_, hnear⟩
  · have hsame := hmatched.symm.trans hoffset
    exact (Outcome.success.inj hsame).2.symm
  · rw [hposition]
    rfl

end Definitions

end Evaluations

end Backtrack
