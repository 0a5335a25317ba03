import Backtrack.Evaluation
import Backtrack.Proofs.Parser.Journal

/-!
# The first error ends a run

Once a call inside a run ends with an error, all that is left of the run is that the calls around it
end, one after another, with the same error. No parser is called any more and nothing is asked, the
run comes to this error, and so does an evaluation.
-/

namespace Backtrack

/-- The calls that are open after some events, the latest first, if some were open before. -/
def openCalls : List Call → List Event → List Call
  | calls, [] => calls
  | calls, .called call :: events => openCalls (call :: calls) events
  | calls, .asked :: events => openCalls calls events
  | calls, .ended _ _ :: events => openCalls calls.tail events

theorem openCalls_append (calls : List Call) (s t : List Event) :
    openCalls calls (s ++ t) = openCalls (openCalls calls s) t := by
  induction s generalizing calls with
  | nil => rfl
  | cons e s ih => cases e <;> exact ih _

/-- An element of a list that is put together from two stands in one of them. -/
theorem append_eq_append_cons {α : Type} {s t before after : List α} {x : α}
    (h : s ++ t = before ++ x :: after) :
    (∃ mid, s = before ++ x :: mid ∧ after = mid ++ t) ∨
      ∃ mid, before = s ++ mid ∧ t = mid ++ x :: after := by
  rcases List.append_eq_append_iff.mp h with ⟨mid, hbefore, ht⟩ | ⟨mid, hs, hrest⟩
  · exact .inr ⟨mid, hbefore, ht⟩
  · cases mid with
    | nil => exact .inr ⟨[], by simpa using hs.symm, hrest.symm⟩
    | cons y mid =>
      obtain ⟨rfl, hafter⟩ := List.cons.inj hrest
      exact .inl ⟨mid, hs, hafter⟩

namespace Watched

variable {α β : Type}

/-- Every call that the journal opens is closed in it, and behind the end of a call that was aborted
there are only the ends of the calls around it, with the same error. -/
structure Settled (w : Watched α) : Prop where
  closed : ∀ calls, openCalls calls w.journal = calls
  aborted : ∀ before call e after, w.journal = before ++ .ended call (.aborted e) :: after →
    w.outcome = .fatal e ∧ ∃ inner : List Call,
      (∀ calls, openCalls calls (before ++ [.ended call (.aborted e)]) = inner ++ calls) ∧
      after = inner.map fun outer => .ended outer (.aborted e)

theorem settled_of_nil {w : Watched α} (h : w.journal = []) : w.Settled where
  closed := by simp [h, openCalls]
  aborted := by simp [h]

theorem settled_quiet (r : Run α) : (quiet r).Settled := settled_of_nil rfl

theorem Settled.asking {w : Watched α} (h : w.Settled) : w.asking.Settled where
  closed := h.closed
  aborted := by
    intro before call e after hj
    cases before with
    | nil => cases hj
    | cons x before =>
      obtain ⟨rfl, hrest⟩ := List.cons.inj hj
      exact h.aborted before call e after hrest

theorem Settled.after {w : Watched α} {v : Watched β} (hw : w.Settled) (hv : v.Settled)
    (h : ∀ e, w.outcome ≠ .fatal e) : (v.after w.journal).Settled where
  closed := by
    intro calls
    rw [Watched.after, openCalls_append, hw.closed, hv.closed]
  aborted := by
    intro before call e after hj
    rcases append_eq_append_cons hj with ⟨mid, hmid, _⟩ | ⟨mid, rfl, hmid⟩
    · exact absurd (hw.aborted before call e mid hmid).1 (h e)
    · obtain ⟨houtcome, inner, hinner, hafter⟩ := hv.aborted mid call e after hmid
      refine ⟨houtcome, inner, fun calls => ?_, hafter⟩
      rw [List.append_assoc, openCalls_append, hw.closed]
      exact hinner calls

theorem Settled.goOn {w : Watched α} (h : w.Settled) {f : α → Int → Watched β}
    {g : Int → Watched β} (hf : ∀ a next, (f a next).Settled) (hg : ∀ next, (g next).Settled) :
    (w.goOn f g).Settled := by
  unfold Watched.goOn
  split
  · rename_i a next hw
    exact h.after (hf a next) (by simp [hw])
  · rename_i next hw
    exact h.after (hg next) (by simp [hw])
  · rename_i e hw
    refine ⟨h.closed, fun before call e' after hj => ?_⟩
    obtain ⟨houtcome, hrest⟩ := h.aborted before call e' after hj
    rw [hw] at houtcome
    cases houtcome
    exact ⟨rfl, hrest⟩
  · rename_i why hw
    refine ⟨h.closed, fun before call e' after hj => ?_⟩
    have houtcome := (h.aborted before call e' after hj).1
    rw [hw] at houtcome
    cases houtcome

theorem Settled.onSuccess {w : Watched α} (h : w.Settled) {f : α → Int → Watched β}
    (hf : ∀ a next, (f a next).Settled) : (w.onSuccess f).Settled :=
  h.goOn hf fun _ => settled_quiet _

theorem Settled.onMiss {w : Watched α} (h : w.Settled) {f : Int → Watched α}
    (hf : ∀ next, (f next).Settled) : (w.onMiss f).Settled :=
  h.goOn (fun _ _ => settled_quiet _) hf

theorem exit_eq_aborted {o : Outcome α} {e : ParseError} (h : o.exit = .aborted e) :
    o = .fatal e := by
  cases o <;> cases h
  rfl

theorem Settled.calling {w : Watched α} (h : w.Settled) (call : Call) :
    (w.calling call).Settled where
  closed := by
    intro calls
    change openCalls (call :: calls) (w.journal ++ [.ended call w.outcome.exit]) = calls
    rw [openCalls_append, h.closed]
    rfl
  aborted := by
    intro before call' e after hj
    change Event.called call :: (w.journal ++ [.ended call w.outcome.exit]) = _ at hj
    cases before with
    | nil => cases hj
    | cons x before =>
      obtain ⟨rfl, hinside⟩ := List.cons.inj hj
      rcases append_eq_append_cons hinside with ⟨mid, hmid, rfl⟩ | ⟨mid, rfl, hmid⟩
      · obtain ⟨houtcome, inner, hinner, rfl⟩ := h.aborted before call' e mid hmid
        refine ⟨houtcome, inner ++ [call], fun calls => ?_, ?_⟩
        · exact (hinner (call :: calls)).trans (by simp)
        · simp [houtcome, Outcome.exit]
      · -- The call that was aborted is the one that is closed here.
        cases mid with
        | cons y mid => simp at hmid
        | nil =>
          obtain ⟨hlast, hafter⟩ := List.cons.inj hmid
          obtain ⟨rfl, hexit⟩ := Event.ended.inj hlast
          refine ⟨exit_eq_aborted hexit, [], fun calls => ?_, hafter.symm⟩
          change openCalls (call :: calls) ((w.journal ++ []) ++ [.ended call (.aborted e)]) = calls
          rw [List.append_nil, openCalls_append, h.closed]
          rfl

end Watched

def Watcher.Settled {α : Type} (w : Watcher α) : Prop :=
  ∀ input offset, (w input offset).Settled

namespace Watcher.Settled

variable {α : Type} {w : Watcher α}

theorem call (h : w.Settled) (name : Option Bytes) : (Watcher.call name w).Settled :=
  fun input offset => (h input offset).calling _

theorem sequenceFrom {ws : List (Watcher α)} (h : ∀ w ∈ ws, w.Settled) (values : List α) :
    (Watcher.sequenceFrom values ws).Settled := by
  induction ws generalizing values with
  | nil => exact fun _ _ => Watched.settled_quiet _
  | cons w ws ih =>
    intro input offset
    refine (h w List.mem_cons_self input offset).onSuccess fun a next => ?_
    exact ih (fun v hv => h v (List.mem_cons_of_mem w hv)) (a :: values) input next

theorem oneOfFrom {ws : List (Watcher α)} (h : ∀ w ∈ ws, w.Settled) (furthest : Int) :
    (Watcher.oneOfFrom furthest ws).Settled := by
  induction ws generalizing furthest with
  | nil => exact fun _ _ => Watched.settled_quiet _
  | cons w ws ih =>
    intro input offset
    refine (h w List.mem_cons_self input offset).onMiss fun missed => ?_
    exact ih (fun v hv => h v (List.mem_cons_of_mem w hv)) _ input offset

theorem repeatExactly (h : w.Settled) {rest : List α → Watcher (List α)}
    (hrest : ∀ values, (rest values).Settled) (n : Nat) (values : List α) :
    (Watcher.repeatExactly w rest n values).Settled := by
  induction n generalizing values with
  | zero => exact hrest values
  | succ n ih =>
    intro input offset
    exact (h input offset).onSuccess fun a next => ih (a :: values) input next

theorem repeatUpTo (h : w.Settled) (input : Input) (n : Nat) (values : List α) (offset : Int) :
    (Watcher.repeatUpTo w input n values offset).Settled := by
  induction n generalizing values offset with
  | zero => exact Watched.settled_quiet _
  | succ n ih =>
    exact (h input offset).goOn (fun a next => ih (a :: values) next)
      fun _ => Watched.settled_quiet _

theorem repeatMany (h : w.Settled) (input : Input) (fuel : Nat) (values : List α)
    (offset : Int) : (Watcher.repeatMany w input fuel values offset).Settled := by
  induction fuel generalizing values offset with
  | zero => exact Watched.settled_of_nil rfl
  | succ fuel ih =>
    refine (h input offset).goOn (fun a next => ?_) fun _ => Watched.settled_quiet _
    split
    · exact Watched.settled_quiet _
    · exact ih (a :: values) next

theorem repeated (h : w.Settled) (bounds : Bounds) : (Watcher.repeated bounds w).Settled := by
  intro input offset
  unfold Watcher.repeated
  split
  · refine repeatExactly h (fun values input next => ?_) bounds.least [] input offset
    split
    · exact repeatMany h input _ values next
    · exact repeatUpTo h input _ values next
  · exact Watched.settled_quiet _

end Watcher.Settled

/-- An evaluation whose run is aborted comes to the error of the run. -/
theorem Parser.evaluate_of_fatal {α : Type} {p : Parser α} {text : Bytes}
    {requests : List Setting} {settings : Settings} {e : ParseError}
    (hsettings : Settings.ofList requests = .ok settings)
    (h : (p (Input.ofBytes settings.filename text) 0).outcome = .fatal e) :
    (p.evaluate text requests).result = .ok (.error e.toError) := by
  unfold Parser.evaluate
  rw [hsettings]
  dsimp only
  rw [h]
  rfl

section Terms

variable {ι : Type} {τ : ι → Type} {α : Type}

theorem Term.watcher_settled {refs : (i : ι) → Watcher (τ i)} (h : ∀ i, (refs i).Settled)
    (t : Term τ α) : (t.watcher refs).Settled := by
  induction t with
  | satisfy condition =>
    refine .call (fun input offset => ?_) none
    split
    · exact Watched.settled_quiet _
    · exact Watched.settled_quiet _
    · exact (Watched.settled_quiet _).asking
  | literal | pattern | atEnd | always | never | fault =>
    exact .call (fun _ _ => Watched.settled_quiet _) none
  | and p q ihp ihq =>
    refine .call (fun input offset => (ihp input offset).onSuccess fun a middle => ?_) none
    exact (ihq input middle).onSuccess fun b next => Watched.settled_quiet _
  | sequence n ps ih =>
    refine .call (.sequenceFrom (fun w hw => ?_) []) none
    obtain ⟨i, rfl⟩ := List.mem_ofFn.mp hw
    exact ih i
  | map f p ih | mapErr f p ih | filter condition p ih =>
    refine .call (fun input offset => (ih input offset).onSuccess fun a next => ?_) none
    exact (Watched.settled_quiet _).asking
  | flatMap p f ihp ihf =>
    refine .call (fun input offset => (ihp input offset).onSuccess fun a middle => ?_) none
    exact ((ihf a input middle).onSuccess fun b next => Watched.settled_quiet _).asking
  | or p q ihp ihq =>
    refine .call (fun input offset => (ihp input offset).onMiss fun missed => ?_) none
    exact (ihq input offset).onMiss fun other => Watched.settled_quiet _
  | oneOf n ps ih =>
    refine .call (fun input offset => Watcher.Settled.oneOfFrom (fun w hw => ?_) _ _ _) none
    obtain ⟨i, rfl⟩ := List.mem_ofFn.mp hw
    exact ih i
  | repeated bounds p ih => exact .call (ih.repeated bounds) none
  | optional default p ih =>
    refine .call (fun input offset => (ih input offset).onMiss fun _ => ?_) none
    exact Watched.settled_quiet _
  | lookahead p ih =>
    refine .call (fun input offset => (ih input offset).onSuccess fun _ _ => ?_) none
    exact Watched.settled_quiet _
  | not p ih =>
    refine .call (fun input offset => (ih input offset).goOn (fun _ _ => ?_) fun _ => ?_) none
    · exact Watched.settled_quiet _
    · exact Watched.settled_quiet _
  | commit diagnostic p ih =>
    refine .call (fun input offset => (ih input offset).onMiss fun missed => ?_) none
    exact (Watched.settled_quiet _).asking
  | named name p ih => exact ih.call (some name)
  | ref i => exact (h i).call none

namespace Definitions

variable (defs : Definitions τ)

theorem watchedRefsAt_settled (depth : Nat) (i : ι) : (defs.watchedRefsAt depth i).Settled := by
  induction depth generalizing i with
  | zero => exact fun _ _ => Watched.settled_of_nil rfl
  | succ depth ih =>
    simp only [watchedRefsAt]
    split
    · exact Term.watcher_settled ih _
    · exact fun _ _ => Watched.settled_quiet _

theorem watcherAt_settled (depth : Nat) (t : Term τ α) : (defs.watcherAt depth t).Settled :=
  t.watcher_settled (defs.watchedRefsAt_settled depth)

/-- Once a call in a run was aborted, nothing is called or asked any more: what is left of the
journal is that the calls around it end with the same error, the inner ones first. The run and any
evaluation that consists of it come to this error. The journal is that of the run itself, with its
outcome and its trace. -/
theorem abort_is_final (depth : Nat) (t : Term τ α) (input : Input) (offset : Int) :
    (defs.watcherAt depth t input offset).Shows (defs.parserAt depth t input offset) ∧
    ∀ before call e after,
      (defs.watcherAt depth t input offset).journal =
        before ++ .ended call (.aborted e) :: after →
      after = (openCalls [] (before ++ [.ended call (.aborted e)])).map
        (fun outer => .ended outer (.aborted e)) ∧
      (defs.parserAt depth t input offset).outcome = .fatal e ∧
      ∀ text requests settings, Settings.ofList requests = .ok settings →
        input = Input.ofBytes settings.filename text → offset = 0 →
        ((defs.parserAt depth t).evaluate text requests).result = .ok (.error e.toError) := by
  have hshows := defs.watcherAt_shows depth t input offset
  refine ⟨hshows, fun before call e after hj => ?_⟩
  obtain ⟨houtcome, inner, hinner, rfl⟩ :=
    (defs.watcherAt_settled depth t input offset).aborted before call e after hj
  have hfatal : (defs.parserAt depth t input offset).outcome = .fatal e :=
    hshows.outcome.symm.trans houtcome
  refine ⟨by rw [hinner, List.append_nil], hfatal, ?_⟩
  rintro text requests settings hsettings rfl rfl
  exact Parser.evaluate_of_fatal hsettings hfatal

theorem abort_is_final_digitLists :
    ∃ before e after,
      (digitLists.watcherAt 3 (.ref ()) (Input.ofBytes [] "[1,[2") 0).journal =
        before ++ .ended ⟨none, 5⟩ (.aborted e) :: after ∧
      after = (openCalls [] (before ++ [.ended ⟨none, 5⟩ (.aborted e)])).map
        (fun outer => .ended outer (.aborted e)) ∧
      after.length = 17 ∧
      ((digitLists.parserAt 3 (.ref ())).evaluate "[1,[2" []).result = .ok (.error e.toError) := by
  let journal := (digitLists.watcherAt 3 (.ref ()) (Input.ofBytes [] "[1,[2") 0).journal
  obtain ⟨e, he⟩ : ∃ e, journal =
      journal.take 71 ++ .ended ⟨none, 5⟩ (.aborted e) :: journal.drop 72 := ⟨_, rfl⟩
  obtain ⟨_, hfinal⟩ := digitLists.abort_is_final 3 (.ref ()) (Input.ofBytes [] "[1,[2") 0
  obtain ⟨hafter, _, hevaluate⟩ := hfinal _ _ e _ he
  have hlength : (journal.drop 72).length = 17 := by decide +kernel
  exact ⟨_, e, _, he, hafter, hlength, hevaluate "[1,[2" [] {} rfl rfl rfl⟩

end Definitions

end Terms

end Backtrack
