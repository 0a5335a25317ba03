import Backtrack.Proofs.Json.Following
import Backtrack.Proofs.Termination

/-!
# Where errors are reported

A text that is rejected is rejected where it stops being JSON: what stands in front of the offset of
the error can be completed, and the token at the offset cannot come there. Only a number that is too
large is reported though a number is due. Outside of brackets a text without a value is reported as
unexpected, and so is what follows a value; inside of brackets every error tells what is missing.

This module does NOT show which texts name the tokens that were expected.
-/

namespace Backtrack.Json

open Numerals Text

def Accepted (text : Bytes) : Prop := ∃ v, (parse text []).result = .ok (.ok v)

/-- The grammar matches a token of some kind at an offset of a text. -/
def TokenAt (text : Bytes) (offset : Nat) (kind : Kind) (token : Bytes) : Prop :=
  ∃ p ∈ terminals kind, ∃ next,
    (definitions.parser 1 p (Input.ofBytes [] text) offset).outcome = .success token next

/-- The offset of the first byte of a text that is no blank. -/
def firstVisible (text : Bytes) : Nat := (text.takeWhile isSpaceByte).length

variable {text token s u r : Bytes} {kind : Kind} {st : State}

abbrev readerOf (text : Bytes) : Reader Rule.type := definitions.readerOf 1 text

theorem offsetOf_eq (text u : Bytes) :
    (readerOf text).offsetOf u = (text.length - u.length : Nat) := by
  unfold Reader.offsetOf placeOf
  rfl

theorem tokenAt_iff (hs : s <:+ text) :
    TokenAt text (text.length - s.length) kind token ↔
      ∃ u, s = token ++ u ∧ Lexeme kind token u := by
  have hbytes : s <:+ (readerOf text).bytes := hs
  have hrun : ∀ p : Grammar Bytes, (readerOf text).run p s =
      (definitions.parser 1 p (Input.ofBytes [] text) (text.length - s.length : Nat)).outcome := by
    intro p
    unfold Reader.run Definitions.parser
    rw [offsetOf_eq, Definitions.parserAt_eq]
    rfl
  constructor
  · rintro ⟨p, hp, next, h⟩
    rw [← hrun] at h
    obtain ⟨u, hread, _⟩ := Reader.reads_of_success hbytes h
    obtain ⟨_, hu⟩ := reads_terminal.mp ⟨p, hp, hread⟩
    exact ⟨u, hu⟩
  · rintro ⟨u, hu⟩
    obtain ⟨p, hp, hread⟩ := reads_terminal.mpr ⟨hbytes, hu⟩
    exact ⟨p, hp, _, (hrun p).symm.trans hread.matched⟩

def errorOffset : Error → Option Int
  | .located _ offset _ _ => some offset
  | .unexpected position _ _ => some position.offset
  | .plain _ | .wrapped .. => none

/-- How a text can be rejected: for what follows its value, for having none, or inside of it. Up to
`u` the text is followed, where `st` tells what is due. -/
inductive Failure (text : Bytes) : Error → State → Bytes → Prop where
  | trailing {position : Position} {near u : Bytes} (hu : u ≠ []) :
    Failure text (.unexpected position near true) (.done []) u
  | missing {position : Position} {near : Bytes} (h : Refuses (.value []) (skip text)) :
    Failure text (.unexpected position near false) (.value []) (skip text)
  | stopped {e : ParseError} {st : State} {u : Bytes} (hstart : ¬ Refuses (.value []) (skip text))
      (hstop : TooLarge u e ∨ Refuses st u ∧ st ≠ .done []) : Failure text e.toError st u

theorem tracks_value (text : Bytes) (inside : List Bracket) :
    Tracks (readerOf text) value (.value inside) (.done inside) :=
  tracks_value_of_ref (tracks_ref _ _) inside

theorem position_offset {input : Input} {offset : Nat} (h : offset ≤ input.size) :
    (input.position offset).offset = offset := by
  simp only [Input.position, Int.toNat_natCast, Nat.min_eq_left h]

theorem exists_failure (h : ¬ Accepted text) : ∃ error st u,
    (parse text []).result = .ok (.error error) ∧ Failure text error st u ∧
      Follows (.value [], skip text) (st, u) ∧ u <:+ text ∧
      errorOffset error = some ((text.length - u.length : Nat) : Int) := by
  have hs : text <:+ (readerOf text).bytes := List.suffix_rfl
  have hplace : ∀ u, ((Input.ofBytes [] text).position ((readerOf text).offsetOf u)).offset =
      (text.length - u.length : Nat) := by
    intro u
    rw [offsetOf_eq]
    exact position_offset (Nat.sub_le _ _)
  obtain ⟨result, hresult⟩ := parse_isOk text []
  cases result with
  | ok v => exact absurd ⟨v, hresult⟩ h
  | error error =>
    have hjudge : ((readerOf text).run value text).judge (Input.ofBytes [] text) false =
        .ok (.error error) := Definitions.evaluate_eq_judge.symm.trans hresult
    have hreport : ∀ s trailing, (Outcome.judge.report (Input.ofBytes [] text)
        ((readerOf text).offsetOf s) trailing : Except Halt (Except Error Value)) =
          .ok (.error error) → ∃ near, error =
            .unexpected ((Input.ofBytes [] text).position ((readerOf text).offsetOf s)) near
              trailing := by
      intro s trailing h
      obtain ⟨near, hnear⟩ := Outcome.exists_report Reader.offsetOf_nonneg trailing
      rw [hnear] at h
      cases h
      exact ⟨near, rfl⟩
    cases hrun : (readerOf text).run value text with
    | success v next =>
      obtain ⟨u, hread, rfl⟩ := Reader.reads_of_success hs hrun
      obtain ⟨hfollows, _⟩ := (tracks_value text []).matched (State.extends_refl _) hread
      have hu : u ≠ [] := by
        rintro rfl
        exact h ⟨v, Definitions.evaluate_eq_ok.mpr hread⟩
      rw [hrun] at hjudge
      simp only [Outcome.judge] at hjudge
      split at hjudge
      · obtain ⟨near, rfl⟩ := hreport _ _ hjudge
        exact ⟨_, .done [], u, hresult, .trailing hu, hfollows, hread.finish,
          congrArg some (hplace u)⟩
      · cases hjudge
    | miss next =>
      obtain ⟨rfl, hrefuses⟩ := (tracks_value text []).missed hs hrun
      rw [hrun] at hjudge
      obtain ⟨near, rfl⟩ := hreport _ _ hjudge
      exact ⟨_, .value [], skip text, hresult, .missing hrefuses, .refl, skip_suffix text,
        congrArg some (hplace _)⟩
    | fatal e =>
      obtain ⟨⟨st, u, hfollows, hu, hoffset, hstop⟩, hstart⟩ :=
        stopped_value (tracks_ref _ _) (State.extends_refl (.value [])) hs hrun
      rw [hrun] at hjudge
      obtain rfl : e.toError = error := Except.error.inj (Except.ok.inj hjudge)
      refine ⟨_, st, u, hresult, .stopped hstart hstop, hfollows, hu, ?_⟩
      rw [offsetOf_eq] at hoffset
      exact congrArg some hoffset
    | halted why =>
      rw [hrun] at hjudge
      cases hjudge

theorem TooLarge.not_passes {e : ParseError} {q : Place} (h : TooLarge u e) :
    ¬ Passes (st, u) q := by
  obtain ⟨token, v, _, rfl, hended, herror, _⟩ := h
  intro hpass
  generalize hp : (st, token ++ v) = p at hpass
  cases hpass with
  | mk htoken hheld _ =>
    obtain ⟨_, heq⟩ := Prod.mk.inj hp
    obtain ⟨rfl, rfl, _⟩ := (Lexeme.number hended).unique htoken heq
    obtain ⟨_, hok⟩ := hheld rfl
    rw [herror] at hok
    cases hok

theorem TooLarge.ne_nil {e : ParseError} (h : TooLarge u e) : u ≠ [] := by
  obtain ⟨token, v, _, rfl, hended, _⟩ := h
  obtain ⟨b, rest, rfl, _⟩ := hended.numeral.head
  exact List.cons_ne_nil _ _

section Failures

variable {error : Error} (h : Failure text error st u)
include h

theorem Failure.not_passes {q : Place} : ¬ Passes (st, u) q := by
  cases h with
  | trailing => exact (refuses_done u).not_passes
  | missing hrefuses => exact hrefuses.not_passes
  | stopped _ hstop =>
    rcases hstop with hlarge | ⟨hrefuses, _⟩
    · exact hlarge.not_passes
    · exact hrefuses.not_passes

theorem Failure.unfinished : (st, u) ≠ (.done [], []) := by
  cases h with
  | trailing hu => exact fun heq => hu (Prod.mk.inj heq).2
  | missing => nofun
  | stopped _ hstop =>
    rcases hstop with hlarge | ⟨_, hst⟩
    · exact fun heq => hlarge.ne_nil (Prod.mk.inj heq).2
    · exact fun heq => hst (Prod.mk.inj heq).1

/-- A text that fails is not followed to the end of a whole value. -/
theorem Failure.not_follows (hfollows : Follows (.value [], skip text) (st, u)) :
    ¬ Follows (.value [], skip text) (.done [], []) :=
  hfollows.not_done (fun _ => h.not_passes) h.unfinished

end Failures

/-- A text is read exactly if it can be followed to the end of a whole value. -/
theorem accepted_iff : Accepted text ↔ Follows (.value [], skip text) (.done [], []) := by
  constructor
  · rintro ⟨v, hv⟩
    have hread := Definitions.evaluate_eq_ok.mp hv
    exact ((tracks_value text []).matched (State.extends_refl _) hread).1
  · -- Otherwise the text fails at a place on the same way, and that place cannot be left.
    intro hfollows
    by_contra h
    obtain ⟨_, _, _, _, hfailure, hplace, _⟩ := exists_failure h
    exact hfailure.not_follows hplace hfollows

/-- What has been followed of a text is read together with something else exactly if that is what
is due. -/
theorem accepted_front (hfollows : Follows (.value [], skip text) (st, u)) (hr : Replaces r u) :
    Accepted (text.take (text.length - u.length) ++ r) ↔ Follows (st, r) (.done [], []) := by
  obtain ⟨z, hz⟩ : ∃ z, z ++ u = skip text := hfollows.suffix
  obtain ⟨blanks, hblanks, htext⟩ := exists_blanks text
  have hfront : text.take (text.length - u.length) = blanks ++ z := by
    apply (List.append_left_inj u).mp
    have hs := hfollows.suffix.trans (skip_suffix text)
    rw [List.suffix_iff_eq_append.mp hs, List.append_assoc, hz, ← htext]
  rw [← hz] at hfollows
  obtain ⟨hreplaced, hvisible⟩ := hfollows.replace hr
  rw [accepted_iff, hfront, List.append_assoc, skip_append hblanks,
    skip_of_headNot hvisible.visible]
  constructor
  · intro hdone
    rcases hreplaced.linear hdone with hrest | hrest
    · exact hrest
    · rw [hrest.eq_of_refuses (refuses_nil _)]
  · exact hreplaced.trans

/-- Something can be put behind a text so that all is read. -/
def Viable (z : Bytes) : Prop := ∃ w, Accepted (z ++ w)

def OutOfRange (text : Bytes) (error : Error) (offset : Nat) : Prop :=
  ∃ token cause e, TokenAt text offset .number token ∧ BeyondRange token ∧
    readNumber token = .error cause ∧ error = ParseError.toError e ∧ e.message = cause.text

def StartsAt (text : Bytes) (offset : Nat) : Prop :=
  ∃ kind token, kind.StartsValue ∧ TokenAt text offset kind token

/-- A text begins with a bracket, and is no whole value. -/
def Opened (z : Bytes) : Prop :=
  ∃ c rest, (c = '[' ∨ c = '\x7b') ∧ skip z = Bytes.ascii c :: rest ∧ ¬ Accepted z

theorem viable_front (hfollows : Follows (.value [], skip text) (st, u)) :
    Viable (text.take (text.length - u.length)) :=
  ⟨st.completion, (accepted_front hfollows (replaces_completion st u)).mpr (follows_completion st)⟩

/-- Where nothing that is due follows, no token that follows can be part of a value. -/
theorem not_viable_front (hfollows : Follows (.value [], skip text) (st, u))
    (hrefuses : Refuses st u) (htoken : TokenAt text (text.length - u.length) kind token) :
    ¬ Viable (text.take (text.length - u.length) ++ token) := by
  obtain ⟨v, rfl, hlexeme⟩ := (tokenAt_iff (hfollows.suffix.trans (skip_suffix text))).mp htoken
  rintro ⟨w, hw⟩
  rw [List.append_assoc, accepted_front hfollows (hlexeme.replaces w)] at hw
  have hend := hw.eq_of_refuses (hrefuses.behind hlexeme w)
  obtain ⟨b, rest, rfl, _⟩ := hlexeme.head
  cases (Prod.mk.inj hend).2

theorem firstVisible_eq (text : Bytes) : firstVisible text = text.length - (skip text).length := by
  have hsplit : text.takeWhile isSpaceByte ++ text.dropWhile isSpaceByte = text :=
    List.takeWhile_append_dropWhile
  have hlength := congrArg List.length hsplit
  rw [List.length_append] at hlength
  unfold firstVisible skip
  omega

theorem refuses_value_iff :
    Refuses (.value []) (skip text) ↔ ¬ StartsAt text (firstVisible text) := by
  rw [firstVisible_eq]
  constructor
  · rintro hrefuses ⟨kind, token, hkind, htoken⟩
    obtain ⟨u, hu, htoken⟩ := (tokenAt_iff (skip_suffix text)).mp htoken
    exact valueNext_eq_none.mp (hrefuses kind token u htoken hu) hkind
  · intro h kind token u htoken hu
    apply valueNext_eq_none.mpr
    intro hkind
    exact h ⟨kind, token, hkind, (tokenAt_iff (skip_suffix text)).mpr ⟨u, hu, htoken⟩⟩

/-- How an error of a text is told by its offset. What has been matched in front of it can be
completed, and the token at it, if there is one, cannot come there. -/
structure ReportedAt (text : Bytes) (error : Error) (offset : Nat) : Prop where
  told : errorOffset error = some (offset : Int)
  within : offset ≤ text.length
  /-- Blanks are passed before an error is reported. -/
  visible : HeadNot isSpaceByte (text.drop offset)
  viable : Viable (text.take offset)
  stuck : ¬ OutOfRange text error offset → ∀ kind token, TokenAt text offset kind token →
    ¬ Viable (text.take offset ++ token)
  /-- Only a text without a value is reported as unexpected from its first visible byte on. -/
  unexpected : (∃ position near, error = .unexpected position near false) ↔
    ¬ StartsAt text (firstVisible text)
  first : (∃ position near, error = .unexpected position near false) → offset = firstVisible text
  opened : Opened (text.take offset) → ∃ e : ParseError, error = e.toError

section Reports

variable {error : Error} (h : Failure text error st u)
  (hfollows : Follows (.value [], skip text) (st, u))
include h hfollows

theorem Failure.unexpected_iff : (∃ position near, error = .unexpected position near false) ↔
    ¬ StartsAt text (firstVisible text) := by
  rw [← refuses_value_iff]
  cases h with
  | trailing =>
    apply iff_of_false
    · rintro ⟨_, _, heq⟩
      cases heq
    · intro hrefuses
      cases hfollows.eq_of_refuses hrefuses
  | missing hrefuses => exact iff_of_true ⟨_, _, rfl⟩ hrefuses
  | stopped hstart =>
    apply iff_of_false _ hstart
    rintro ⟨_, _, heq⟩
    cases heq

theorem Failure.stuck (hrange : ¬ OutOfRange text error (text.length - u.length)) :
    Refuses st u := by
  cases h with
  | trailing => exact refuses_done u
  | missing hrefuses => exact hrefuses
  | stopped _ hstop =>
    rcases hstop with ⟨token, v, cause, rfl, hended, herror, hmessage⟩ | ⟨hrefuses, _⟩
    · have htoken : TokenAt text (text.length - (token ++ v).length) .number token :=
        (tokenAt_iff (hfollows.suffix.trans (skip_suffix text))).mpr ⟨v, rfl, .number hended⟩
      exact absurd ⟨token, cause, _, htoken, beyondRange_of_error hended.numeral herror, herror,
        rfl, hmessage⟩ hrange
    · exact hrefuses

theorem Failure.opened (hopened : Opened (text.take (text.length - u.length))) :
    ∃ e : ParseError, error = e.toError := by
  obtain ⟨c, rest, _, hskip, hrejected⟩ := hopened
  cases h with
  | trailing =>
    have hempty : Replaces [] u := replaces_of_headNot headNot_nil headNot_nil
    have hfront := (accepted_front hfollows hempty).mpr .refl
    rw [List.append_nil] at hfront
    exact absurd hfront hrejected
  | missing =>
    obtain ⟨blanks, hblanks, htext⟩ := exists_blanks text
    have hfront : text.take (text.length - (skip text).length) = blanks ++ [] := by
      apply (List.append_left_inj (skip text)).mp
      rw [List.suffix_iff_eq_append.mp (skip_suffix text), List.append_nil, ← htext]
    rw [hfront, skip_append hblanks] at hskip
    cases hskip
  | stopped => exact ⟨_, rfl⟩

end Reports

/-- A text that is not read is rejected with an error where it stops being JSON. -/
theorem parse_error_at (h : ¬ Accepted text) : ∃ error offset,
    (parse text []).result = .ok (.error error) ∧ ReportedAt text error offset := by
  obtain ⟨error, st, u, hresult, hfailure, hfollows, hu, htold⟩ := exists_failure h
  refine ⟨error, text.length - u.length, hresult, htold, Nat.sub_le _ _, ?_,
    viable_front hfollows, ?_, hfailure.unexpected_iff hfollows, ?_, hfailure.opened hfollows⟩
  · rw [← List.suffix_iff_eq_drop.mp hu]
    exact hfollows.visible (headNot_skip text)
  · intro hrange kind token htoken
    exact not_viable_front hfollows (hfailure.stuck hfollows hrange) htoken
  · rintro ⟨position, near, rfl⟩
    rw [firstVisible_eq]
    cases hfailure with
    | missing => rfl

/-- Between the elements of an array a comma is missing. -/
theorem parse_error_at_missingComma : ¬ Accepted "[1 2]" ∧ ∃ error offset,
    (parse "[1 2]" []).result = .ok (.error error) ∧ ReportedAt "[1 2]" error offset := by
  have h : ¬ Accepted "[1 2]" := by
    have hopening : Passes (.value [], "[1 2]") (.elements [], "1 2]") :=
      passes_mark (by decide) rfl (headNot_cons.mpr (by decide))
    have hone : Lexeme .number "1" " 2]" := by
      apply Lexeme.number
      apply Numeral.ended ⟨[], "1", [], .none, .whole ⟨by decide, by decide⟩, .none, rfl⟩
      exact headNot_cons.mpr (by decide)
    have hnumber : Passes (.elements [], "1 2]") (.done [.array], "2]") :=
      .mk hone (fun _ => ⟨.int 1, rfl⟩) rfl
    have hrefuses : Refuses (.done [.array]) "2]" := refuses_cons (by decide) _
    have hfollows : Follows (.value [], "[1 2]") (.done [.array], "2]") :=
      .head hopening (.single hnumber)
    rw [accepted_iff]
    exact hfollows.not_done (fun _ => hrefuses.not_passes) nofun
  exact ⟨h, parse_error_at h⟩

end Backtrack.Json
