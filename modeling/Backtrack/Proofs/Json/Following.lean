import Backtrack.Proofs.Json.Progress
import Backtrack.Proofs.Parser.Failing

/-!
# Where the JSON grammar stops

What the grammar matches can be followed token by token, and so can the text in front of an error:
the error is placed where the text cannot be followed any further, or where a number is too large.
The commit points see to that, since each of them stands where exactly the tokens that are tried are
due.
-/

namespace Backtrack.Json

open Text

variable {rd : Reader Rule.type} {s u m : Bytes} {α : Type} {e : ParseError} {st st' : State}
  {n : Int} {c : Char}

/-- A number that cannot be held begins a text, and the error says why. -/
def TooLarge (s : Bytes) (e : ParseError) : Prop :=
  ∃ token u error, s = token ++ u ∧ Numerals.Ended token u ∧ readNumber token = .error error ∧
    e.message = error.text

/-- An error is placed where a text cannot be followed any further. -/
def StopsAt (rd : Reader Rule.type) (st : State) (s : Bytes) (e : ParseError) : Prop :=
  ∃ st' u, Follows (st, s) (st', u) ∧ u <:+ rd.bytes ∧ e.offset = rd.offsetOf u ∧
    (TooLarge u e ∨ Refuses st' u ∧ st' ≠ .done [])

theorem StopsAt.of_follows (h : StopsAt rd st' u e) (hfollows : Follows (st, s) (st', u)) :
    StopsAt rd st s e := by
  obtain ⟨st₁, v, hv, hrest⟩ := h
  exact ⟨st₁, v, hfollows.trans hv, hrest⟩

/-- All that may come in one state may come in another, with the same consequence. -/
def State.Extends (st entry : State) : Prop :=
  ∀ kind st', entry.next kind = some st' → st.next kind = some st'

theorem State.extends_refl (st : State) : st.Extends st := fun _ _ h => h

/-- A term keeps to the tokens that are due between two states. -/
structure Tracks (rd : Reader Rule.type) (p : Grammar α) (entry exit : State) : Prop where
  matched : ∀ ⦃st s a u⦄, st.Extends entry → rd.Reads p s a u →
    Follows (st, skip s) (exit, u) ∧ skip u = u
  missed : ∀ ⦃s n⦄, s <:+ rd.bytes → rd.run p s = .miss n →
    n = rd.offsetOf (skip s) ∧ Refuses entry (skip s)
  stopped : ∀ ⦃st s e⦄, st.Extends entry → s <:+ rd.bytes → rd.run p s = .fatal e →
    StopsAt rd st (skip s) e

theorem passes_token (hc : c ∈ marks) (hnext : st.next (.mark c) = some st') {d : Char}
    (h : rd.Reads (token c) s d u) : Passes (st, skip s) (st', u) ∧ skip u = u := by
  obtain ⟨_, ⟨r, hskip, rfl⟩, _⟩ := (Reader.reads_trim_char (ascii_of_mark hc)).mp h
  rw [hskip]
  exact ⟨.mk (.mark hc) nofun hnext, skip_skip r⟩

theorem miss_token (hc : c ∈ marks) (hs : s <:+ rd.bytes) (h : rd.run (token c) s = .miss n) :
    n = rd.offsetOf (skip s) ∧ Lacks (.mark c) (skip s) := by
  have hskipped := (skip_suffix s).trans hs
  have hmiss := Reader.miss_trim hs h
  refine ⟨Reader.miss_satisfy hskipped hmiss, lacks_of_rejects hskipped ?_⟩
  intro p hp
  simp only [terminals, if_pos hc, List.mem_singleton] at hp
  subst hp
  exact Reader.rejects_map (Reader.rejects_of_miss hskipped hmiss)

theorem not_fatal_token (hs : s <:+ rd.bytes) : rd.run (token c) s ≠ .fatal e := by
  intro h
  exact Reader.not_fatal_satisfy ((skip_suffix s).trans hs) (Reader.fatal_trim hs h)

/-- The states around a list: its bracket opened, an element due, an element passed, and the list
closed. -/
structure Listing (closing : Char) (opened entry exit final : State) : Prop where
  mark : closing ∈ marks
  starts : opened.Extends entry
  close : opened.next (.mark closing) = some final
  first : ∀ kind, kind ≠ .mark closing → entry.next kind = none → opened.next kind = none
  comma : exit.next (.mark ',') = some entry
  last : exit.next (.mark closing) = some final
  rest : ∀ kind, kind ≠ .mark ',' → kind ≠ .mark closing → exit.next kind = none
  inside : opened ≠ .done [] ∧ entry ≠ .done [] ∧ exit ≠ .done []

section Lists

variable {p : Grammar α} {opened entry exit final : State} {opening closing : Char}
  {what closingOrWhat closingOrComma : Bytes} {as : List α}

def further (p : Grammar α) (what : Bytes) : Grammar α := (token ',').skipLeft (p.expect what)

def listed (closing : Char) (p : Grammar α) (what closingOrWhat closingOrComma : Bytes) :
    Grammar (List α) :=
  Term.expect closingOrWhat <| Term.choice [
    (token closing).value [],
    (commaList p what).skipRight ((token closing).expect closingOrComma)]

theorem bracketed_eq : bracketed opening closing p what closingOrWhat closingOrComma =
    (token opening).skipLeft (listed closing p what closingOrWhat closingOrComma) := rfl

theorem comma_mark : ',' ∈ marks := by decide

/-- An expected term stops where the term does, or where it is missed. -/
theorem Tracks.stopped_expect (hp : Tracks rd p entry exit) (hentry : entry ≠ .done [])
    (hs : s <:+ rd.bytes) (h : rd.run (p.expect what) s = .fatal e) :
    StopsAt rd entry (skip s) e := by
  rcases Reader.fatal_expect h with h | h
  · exact hp.stopped entry.extends_refl hs h
  · obtain ⟨hoffset, hrefuses⟩ := hp.missed hs h
    exact ⟨entry, skip s, .refl, (skip_suffix s).trans hs, hoffset, .inr ⟨hrefuses, hentry⟩⟩

variable (hlist : Listing closing opened entry exit final) (hp : Tracks rd p entry exit)
include hlist hp

theorem follows_further (hm : skip m = m) (h : rd.Links (further p what) m u) :
    Follows (exit, m) (exit, u) ∧ skip u = u := by
  obtain ⟨a, h⟩ := h
  obtain ⟨_, w, hcomma, hread⟩ := Reader.reads_skipLeft.mp h
  obtain ⟨hpass, hw⟩ := passes_token comma_mark hlist.comma hcomma
  obtain ⟨hfollows, hu⟩ := hp.matched entry.extends_refl ((Reader.reads_expect what).mp hread)
  rw [hm] at hpass
  rw [hw] at hfollows
  exact ⟨hfollows.head hpass, hu⟩

theorem follows_links (hm : skip m = m)
    (h : Relation.ReflTransGen (rd.Links (further p what)) m u) :
    Follows (exit, m) (exit, u) ∧ skip u = u := by
  induction h with
  | refl => exact ⟨.refl, hm⟩
  | tail _ hlink ih =>
    obtain ⟨hfollows, hu⟩ := follows_further hlist hp ih.2 hlink
    exact ⟨ih.1.trans hfollows, hu⟩

theorem stopped_further (hs : m <:+ rd.bytes) (hm : skip m = m)
    (h : rd.run (further p what) m = .fatal e) : StopsAt rd exit m e := by
  rcases Reader.fatal_skipLeft hs h with h | ⟨_, w, hcomma, h⟩
  · exact absurd h (not_fatal_token hs)
  · obtain ⟨hpass, hw⟩ := passes_token comma_mark hlist.comma hcomma
    have hstop := hp.stopped_expect hlist.inside.2.1 hcomma.finish h
    rw [hm] at hpass
    rw [hw] at hstop
    exact hstop.of_follows (.single hpass)

omit hlist hp in
theorem not_reads_further_self {a : α} : ¬ rd.Reads (further p what) s a s := by
  intro h
  obtain ⟨_, w, hcomma, hread⟩ := Reader.reads_skipLeft.mp h
  have hlt := delimiter_comma.length_lt hcomma
  have hle := hread.rest.length_le
  omega

/-- A list without brackets is followed to a place where no comma is. -/
theorem follows_commaList (hst : st.Extends entry) (h : rd.Reads (commaList p what) s as u) :
    Follows (st, skip s) (exit, u) ∧ skip u = u ∧ rd.Rejects (token ',') u := by
  obtain ⟨⟨a, as⟩, hpair, rfl⟩ := Reader.reads_map.mp h
  obtain ⟨m, hm, hmany⟩ := Reader.reads_and.mp hpair
  obtain ⟨hfollows, hskip⟩ := hp.matched hst hm
  obtain ⟨_, hchain⟩ := Reader.reads_many0.mp hmany
  obtain ⟨hmore, hu⟩ := follows_links hlist hp hskip hchain.links
  refine ⟨hfollows.trans hmore, hu, ?_⟩
  -- Behind a comma an element is missed with an error, so the repetition ended at a missing comma.
  rcases Reader.rejects_skipLeft_iff.mp (hchain.rejects fun _ _ => not_reads_further_self) with
    hcomma | ⟨_, _, _, hreject⟩
  · exact hcomma
  · exact absurd hreject Reader.not_rejects_commit

omit hlist in
theorem missed_commaList (hs : s <:+ rd.bytes) (h : rd.run (commaList p what) s = .miss n) :
    n = rd.offsetOf (skip s) ∧ Refuses entry (skip s) := by
  rcases Reader.miss_and hs (Reader.miss_map h) with h | ⟨_, m, hm, h⟩
  · exact hp.missed hs h
  · exact absurd (Reader.rejects_of_miss hm.finish h) Reader.not_rejects_many0

theorem stopped_commaList (hst : st.Extends entry) (hs : s <:+ rd.bytes)
    (h : rd.run (commaList p what) s = .fatal e) : StopsAt rd st (skip s) e := by
  rcases Reader.fatal_and hs (Reader.fatal_map h) with h | ⟨_, m, hm, h⟩
  · exact hp.stopped hst hs h
  · obtain ⟨hfollows, hskip⟩ := hp.matched hst hm
    obtain ⟨w, hlinks, hw, h⟩ := Reader.fatal_many0 hm.finish h
    obtain ⟨hmore, hwskip⟩ := follows_links hlist hp hskip hlinks
    exact (stopped_further hlist hp hw hwskip h).of_follows (hfollows.trans hmore)

theorem follows_listed (hm : skip m = m)
    (h : rd.Reads (listed closing p what closingOrWhat closingOrComma) m as u) :
    Follows (opened, m) (final, u) ∧ skip u = u := by
  rcases Reader.reads_choice_cons.mp ((Reader.reads_expect _).mp h) with hempty | ⟨_, h⟩
  · obtain ⟨⟨_, hclose⟩, _⟩ := Reader.reads_value.mp hempty
    obtain ⟨hpass, hu⟩ := passes_token hlist.mark hlist.close hclose
    rw [hm] at hpass
    exact ⟨.single hpass, hu⟩
  · rcases Reader.reads_choice_cons.mp h with h | ⟨_, hnil⟩
    · obtain ⟨_, w, hw, hclose⟩ := Reader.reads_skipRight.mp h
      obtain ⟨hfollows, hskip, _⟩ := follows_commaList hlist hp hlist.starts hw
      obtain ⟨hpass, hu⟩ :=
        passes_token hlist.mark hlist.last ((Reader.reads_expect _).mp hclose)
      rw [hm] at hfollows
      rw [hskip] at hpass
      exact ⟨hfollows.tail hpass, hu⟩
    · exact absurd hnil Reader.not_reads_choice_nil

omit hp in
/-- Where neither a comma nor the closing bracket follows an element, nothing that is due does. -/
theorem refuses_exit (hskip : skip u = u) (hcomma : rd.Rejects (token ',') u)
    (hclose : rd.run (token closing) u = .miss n) : n = rd.offsetOf u ∧ Refuses exit u := by
  obtain ⟨hs, next, hmiss⟩ := hcomma
  obtain ⟨_, hnotComma⟩ := miss_token comma_mark hs hmiss
  obtain ⟨hn, hnotClosing⟩ := miss_token hlist.mark hs hclose
  rw [hskip] at hn hnotComma hnotClosing
  refine ⟨hn, fun kind token v htoken hu => ?_⟩
  exact hlist.rest kind (hnotComma.ne htoken hu) (hnotClosing.ne htoken hu)

/-- Where neither an element nor the closing bracket follows the opening one, nothing that is due
does. -/
theorem refuses_opened (hs : m <:+ rd.bytes) (hm : skip m = m)
    (h : rd.run (.choice [(token closing).value [],
      (commaList p what).skipRight ((token closing).expect closingOrComma)]) m = .miss n) :
    n = rd.offsetOf m ∧ Refuses opened m := by
  have hclosing : ∀ n, rd.run ((token closing).value ([] : List α)) m = .miss n →
      n = rd.offsetOf m ∧ Lacks (.mark closing) m := by
    intro n hn
    have hmiss := miss_token hlist.mark hs (Reader.miss_map hn)
    rwa [hm] at hmiss
  have helements : ∀ n, rd.run ((commaList p what).skipRight
      ((token closing).expect closingOrComma)) m = .miss n →
      n = rd.offsetOf m ∧ Refuses entry m := by
    intro n hn
    rcases Reader.miss_skipRight hs hn with hn | ⟨_, w, hw, hn⟩
    · have hmiss := missed_commaList hp hs hn
      rwa [hm] at hmiss
    · exact absurd (Reader.rejects_of_miss hw.finish hn) Reader.not_rejects_commit
  obtain ⟨hn, hall⟩ := Reader.miss_choice (by
    intro q hq n hn
    simp only [List.mem_cons, List.not_mem_nil, or_false] at hq
    rcases hq with rfl | rfl
    · exact (hclosing n hn).1
    · exact (helements n hn).1) h
  obtain ⟨_, hnotClosing⟩ := hclosing _ (hall _ List.mem_cons_self)
  obtain ⟨_, hrefuses⟩ := helements _ (hall _ (List.mem_cons_of_mem _ List.mem_cons_self))
  refine ⟨hn, fun kind token v htoken hu => ?_⟩
  exact hlist.first kind (hnotClosing.ne htoken hu) (hrefuses kind token v htoken hu)

theorem stopped_listed (hs : m <:+ rd.bytes) (hm : skip m = m)
    (h : rd.run (listed closing p what closingOrWhat closingOrComma) m = .fatal e) :
    StopsAt rd opened m e := by
  rcases Reader.fatal_expect h with h | h
  · obtain ⟨q, hq, h⟩ := Reader.fatal_choice h
    simp only [List.mem_cons, List.not_mem_nil, or_false] at hq
    rcases hq with rfl | rfl
    · exact absurd (Reader.fatal_map h) (not_fatal_token hs)
    · rcases Reader.fatal_skipRight hs h with h | ⟨_, w, hw, h⟩
      · have hstop := stopped_commaList hlist hp hlist.starts hs h
        rwa [hm] at hstop
      · obtain ⟨hfollows, hskip, hcomma⟩ := follows_commaList hlist hp hlist.starts hw
        rw [hm] at hfollows
        rcases Reader.fatal_expect h with h | h
        · exact absurd h (not_fatal_token hw.finish)
        · obtain ⟨hoffset, hrefuses⟩ := refuses_exit hlist hskip hcomma h
          exact ⟨exit, w, hfollows, hw.finish, hoffset, .inr ⟨hrefuses, hlist.inside.2.2⟩⟩
  · obtain ⟨hoffset, hrefuses⟩ := refuses_opened hlist hp hs hm h
    exact ⟨opened, m, .refl, hs, hoffset, .inr ⟨hrefuses, hlist.inside.1⟩⟩

/-! With its brackets a list is one of the ways that a value can be written. -/

variable {inside : List Bracket} (hopening : opening ∈ marks)
  (hopen : (State.value inside).next (.mark opening) = some opened)
include hopening hopen

theorem follows_bracketed (hst : st.Extends (.value inside))
    (h : rd.Reads (bracketed opening closing p what closingOrWhat closingOrComma) s as u) :
    Follows (st, skip s) (final, u) ∧ skip u = u := by
  obtain ⟨_, m, hm, h⟩ := Reader.reads_skipLeft.mp (bracketed_eq ▸ h)
  obtain ⟨hpass, hskip⟩ := passes_token hopening (hst _ _ hopen) hm
  obtain ⟨hfollows, hu⟩ := follows_listed hlist hp hskip h
  exact ⟨hfollows.head hpass, hu⟩

theorem stopped_bracketed (hst : st.Extends (.value inside)) (hs : s <:+ rd.bytes)
    (h : rd.run (bracketed opening closing p what closingOrWhat closingOrComma) s = .fatal e) :
    StopsAt rd st (skip s) e ∧ ¬ Refuses (.value inside) (skip s) := by
  rcases Reader.fatal_skipLeft hs (bracketed_eq ▸ h) with h | ⟨_, m, hm, h⟩
  · exact absurd h (not_fatal_token hs)
  · obtain ⟨hpass, hskip⟩ := passes_token hopening (hst _ _ hopen) hm
    obtain ⟨hpass', _⟩ := passes_token hopening hopen hm
    refine ⟨(stopped_listed hlist hp hm.finish hskip h).of_follows (.single hpass), ?_⟩
    exact fun hrefuses => hrefuses.not_passes hpass'

end Lists

section Lists

variable {p : Grammar α} {opening closing : Char} {what closingOrWhat closingOrComma : Bytes}

theorem missed_bracketed {f : List α → Value} (hopening : opening ∈ marks) (hs : s <:+ rd.bytes)
    (hskip : skip s = s)
    (h : rd.run ((bracketed opening closing p what closingOrWhat closingOrComma).map f) s =
      .miss n) : n = rd.offsetOf s ∧ Lacks (.mark opening) s := by
  rcases Reader.miss_skipLeft hs (bracketed_eq ▸ Reader.miss_map h) with h | ⟨_, m, hm, h⟩
  · have hmiss := miss_token hopening hs h
    rwa [hskip] at hmiss
  · exact absurd (Reader.rejects_of_miss hm.finish h) Reader.not_rejects_commit

end Lists

theorem listing_array (inside : List Bracket) :
    Listing ']' (.elements inside) (.value (.array :: inside)) (.done (.array :: inside))
      (.done inside) where
  mark := by decide
  starts kind st' h := by
    by_cases hkind : kind = .mark ']'
    · subst hkind
      cases h
    · exact (if_neg hkind).trans h
  close := rfl
  first _ hkind h := (if_neg hkind).trans h
  comma := rfl
  last := rfl
  rest _ hcomma hclosing := (if_neg hcomma).trans (if_neg hclosing)
  inside := ⟨nofun, nofun, nofun⟩

theorem listing_object (inside : List Bracket) :
    Listing '\x7d' (.members inside) (.member inside) (.done (.object :: inside))
      (.done inside) where
  mark := by decide
  starts kind st' h := by
    by_cases hkind : kind = .mark '\x7d'
    · subst hkind
      cases h
    · exact (if_neg hkind).trans h
  close := rfl
  first _ hkind h := (if_neg hkind).trans h
  comma := rfl
  last := rfl
  rest _ hcomma hclosing := (if_neg hcomma).trans (if_neg hclosing)
  inside := ⟨nofun, nofun, nofun⟩

/-- A pattern with a conversion misses where no token of its kind is. -/
theorem miss_converted {kind : Kind} {r : Regex} {convert : Bytes → Except Error α}
    (hr : r.isAnchored = true) (hkind : terminals kind = [.pattern r]) (hs : s <:+ rd.bytes)
    (h : rd.run ((Term.pattern r).mapErr convert) s = .miss n) :
    n = rd.offsetOf s ∧ Lacks kind s := by
  have hmiss := Reader.miss_mapErr h
  refine ⟨Reader.miss_pattern hr hmiss, lacks_of_rejects hs ?_⟩
  intro p hp
  rw [hkind, List.mem_singleton] at hp
  subst hp
  exact Reader.rejects_of_miss hs hmiss

theorem miss_string (hs : s <:+ rd.bytes) (h : rd.run string s = .miss n) :
    n = rd.offsetOf s ∧ Lacks .string s := miss_converted rfl rfl hs h

theorem not_fatal_string (hs : s <:+ rd.bytes) : rd.run string s ≠ .fatal e := by
  intro h
  rcases Reader.fatal_mapErr hs h with h | ⟨token, u, error, hread, herror, _⟩
  · exact Reader.not_fatal_pattern rfl h
  · obtain ⟨_, _, name, htoken⟩ := reads_stringPattern.mp hread
    rw [readString_eq htoken] at herror
    cases herror

def number : Grammar Value := (Term.pattern numberPattern).mapErr readNumber

theorem lexeme_of_number {v : Value} (h : rd.Reads number s v u) :
    ∃ token, s = token ++ u ∧ Numerals.Ended token u ∧ readNumber token = .ok v := by
  obtain ⟨token, hread, hv⟩ := Reader.reads_mapErr.mp h
  obtain ⟨_, hs, hended⟩ := reads_numberPattern.mp hread
  exact ⟨token, hs, hended, hv⟩

theorem miss_number (hs : s <:+ rd.bytes) (h : rd.run number s = .miss n) :
    n = rd.offsetOf s ∧ Lacks .number s := miss_converted rfl rfl hs h

theorem lacks_word (hbool : ∀ text ∈ (["true", "false"] : List Bytes), ¬ text <+: s)
    (hnull : ¬ Bytes.ofString "null" <+: s) : Lacks .word s := by
  intro token u htoken heq
  have hprefix : token <+: s := ⟨u, heq.symm⟩
  cases htoken with
  | word hmem =>
    have hsplit : token ∈ (["true", "false"] : List Bytes) ++ [Bytes.ofString "null"] := hmem
    rcases List.mem_append.mp hsplit with hmem | hmem
    · exact hbool token hmem hprefix
    · obtain rfl := List.mem_singleton.mp hmem
      exact hnull hprefix

/-- Why a number cannot be read is told by a text of its own. -/
theorem parseError?_readNumber {token : Bytes} {error : Error}
    (h : readNumber token = .error error) : error.parseError? = none := by
  unfold readNumber at h
  split at h
  · split at h
    · cases h
    · cases h
      rfl
  · split at h
    · cases h
    · cases h
      rfl

theorem fatal_number (hs : s <:+ rd.bytes) (h : rd.run number s = .fatal e) :
    e.offset = rd.offsetOf s ∧ TooLarge s e := by
  rcases Reader.fatal_mapErr hs h with h | ⟨token, u, error, hread, herror, hplaced⟩
  · exact absurd h (Reader.not_fatal_pattern rfl)
  · obtain ⟨_, heq, hended⟩ := reads_numberPattern.mp hread
    simp only [Input.annotate, parseError?_readNumber herror, Except.ok.injEq] at hplaced
    subst hplaced
    exact ⟨rfl, token, u, error, heq, hended, herror, rfl⟩

/-- A key is passed with the blanks around it. -/
theorem passes_key {name : Bytes} (hnext : st.next .string = some st')
    (h : rd.Reads string.trim s name u) : Passes (st, skip s) (st', u) ∧ skip u = u := by
  obtain ⟨_, m, hname, rfl⟩ := Reader.reads_trim.mp h
  obtain ⟨token, heq, htoken⟩ := sound_string hname
  rw [heq]
  exact ⟨.mk (.string htoken) nofun hnext, skip_skip m⟩

section Values

theorem passes_colon (inside : List Bracket) {what : Bytes} {d : Char}
    (h : rd.Reads ((token ':').expect what) s d u) :
    Passes (.colon inside, skip s) (.value (.object :: inside), u) ∧ skip u = u :=
  passes_token (by decide) rfl ((Reader.reads_expect what).mp h)

variable (href : ∀ inside, Tracks rd (.ref Rule.value) (.value inside) (.done inside))
include href

theorem tracks_member (inside : List Bracket) :
    Tracks rd member (.member inside) (.done (.object :: inside)) where
  matched := by
    rintro st s ⟨name, v⟩ u hst h
    obtain ⟨m, hm, hrest⟩ := Reader.reads_and.mp h
    obtain ⟨hkey, hm⟩ := passes_key (hst _ _ rfl) hm
    obtain ⟨_, w, hcolon, hv⟩ := Reader.reads_skipLeft.mp hrest
    obtain ⟨hmark, hw⟩ := passes_colon inside hcolon
    obtain ⟨hvalue, hu⟩ := (href (.object :: inside)).matched (State.extends_refl _)
      ((Reader.reads_expect _).mp hv)
    rw [hm] at hmark
    rw [hw] at hvalue
    exact ⟨(hvalue.head hmark).head hkey, hu⟩
  missed := by
    intro s n hs h
    rcases Reader.miss_and hs h with h | ⟨_, m, hm, h⟩
    · obtain ⟨hn, hstring⟩ := miss_string ((skip_suffix s).trans hs) (Reader.miss_trim hs h)
      exact ⟨hn, fun kind token u htoken heq => if_neg (hstring.ne htoken heq)⟩
    · rcases Reader.miss_skipLeft hm.finish h with h | ⟨_, w, hw, h⟩
      · exact absurd (Reader.rejects_of_miss hm.finish h) Reader.not_rejects_commit
      · exact absurd (Reader.rejects_of_miss hw.finish h) Reader.not_rejects_commit
  stopped := by
    intro st s e hst hs h
    rcases Reader.fatal_and hs h with h | ⟨_, m, hread, h⟩
    · exact absurd (Reader.fatal_trim hs h) (not_fatal_string ((skip_suffix s).trans hs))
    · obtain ⟨hkey, hm⟩ := passes_key (hst _ _ rfl) hread
      rcases Reader.fatal_skipLeft hread.finish h with h | ⟨_, w, hcolon, h⟩
      · rcases Reader.fatal_expect h with h | h
        · exact absurd h (not_fatal_token hread.finish)
        · obtain ⟨hoffset, hnotColon⟩ := miss_token (by decide) hread.finish h
          rw [hm] at hoffset hnotColon
          refine ⟨.colon inside, m, .single hkey, hread.finish, hoffset, .inr ⟨?_, nofun⟩⟩
          exact fun kind token u htoken heq => if_neg (hnotColon.ne htoken heq)
      · obtain ⟨hmark, hw⟩ := passes_colon inside hcolon
        have hstop := (href (.object :: inside)).stopped_expect nofun hcolon.finish h
        rw [hm] at hmark
        rw [hw] at hstop
        exact hstop.of_follows ((Relation.ReflTransGen.single hmark).head hkey)

omit href in
/-- A scalar between blanks is a value. -/
theorem follows_scalar {inside : List Bracket} {kind : Kind} {token : Bytes}
    (hst : st.Extends (.value inside)) (h : Lexeme kind token m) (hs : skip s = token ++ m)
    (hheld : kind = .number → ∃ v, readNumber token = .ok v)
    (hkind : valueNext inside kind = some (.done inside)) :
    Follows (st, skip s) (.done inside, skip m) ∧ skip (skip m) = skip m := by
  rw [hs]
  exact ⟨.single (.mk h hheld (hst _ _ hkind)), skip_skip m⟩

theorem follows_value {inside : List Bracket} {v : Value} (hst : st.Extends (.value inside))
    (h : rd.Reads value s v u) : Follows (st, skip s) (.done inside, u) ∧ skip u = u := by
  obtain ⟨_, m, hchoice, rfl⟩ := Reader.reads_trim.mp (value_eq ▸ h)
  obtain ⟨p, hp, hread⟩ := Reader.exists_of_reads_choice hchoice
  simp only [alternatives, List.mem_cons, List.not_mem_nil, or_false] at hp
  rcases hp with rfl | rfl | rfl | rfl | rfl | rfl
  all_goals rw [Reader.reads_named] at hread
  · obtain ⟨token, hskip, hended, hv⟩ := lexeme_of_number hread
    exact follows_scalar hst (.number hended) hskip (fun _ => ⟨v, hv⟩) rfl
  · obtain ⟨name, hname, _⟩ := Reader.reads_map.mp hread
    obtain ⟨token, hskip, htoken⟩ := sound_string hname
    exact follows_scalar hst (.string htoken) hskip nofun rfl
  · obtain ⟨word, hword, _⟩ := Reader.reads_map.mp hread
    obtain ⟨hmem, hskip⟩ := Reader.reads_literals hword
    exact follows_scalar hst (.word (List.mem_append_left [_] hmem)) hskip nofun rfl
  · obtain ⟨⟨word, hword⟩, _⟩ := Reader.reads_value.mp hread
    obtain ⟨_, hskip, _⟩ := Reader.reads_literal.mp hword
    exact follows_scalar hst (.word (by simp [words])) hskip nofun rfl
  · obtain ⟨elements, hlist, _⟩ := Reader.reads_map.mp hread
    obtain ⟨hfollows, hm⟩ := follows_bracketed (listing_array inside) (href _) (by decide) rfl hst
      hlist
    rw [skip_skip] at hfollows
    rw [hm]
    exact ⟨hfollows, hm⟩
  · obtain ⟨members, hlist, _⟩ := Reader.reads_map.mp hread
    obtain ⟨hfollows, hm⟩ := follows_bracketed (listing_object inside) (tracks_member href inside)
      (by decide) rfl hst hlist
    rw [skip_skip] at hfollows
    rw [hm]
    exact ⟨hfollows, hm⟩

omit href in
theorem miss_alternative {p : Grammar Value} (hs : s <:+ rd.bytes) (hskip : skip s = s)
    (hp : p ∈ alternatives) (h : rd.run p s = .miss n) : n = rd.offsetOf s := by
  simp only [alternatives, List.mem_cons, List.not_mem_nil, or_false] at hp
  rcases hp with rfl | rfl | rfl | rfl | rfl | rfl
  · exact (miss_number hs h).1
  · exact (miss_string hs (Reader.miss_map h)).1
  · exact (Reader.miss_literals hs (Reader.miss_map h)).1
  · exact Reader.miss_literal hs (Reader.miss_map h)
  · exact (missed_bracketed (by decide) hs hskip h).1
  · exact (missed_bracketed (by decide) hs hskip h).1

omit href in
theorem missed_alternatives (inside : List Bracket) (hs : s <:+ rd.bytes) (hskip : skip s = s)
    (h : rd.run (.choice alternatives) s = .miss n) :
    n = rd.offsetOf s ∧ Refuses (.value inside) s := by
  obtain ⟨hn, hall⟩ := Reader.miss_choice (fun _ hp _ hn => miss_alternative hs hskip hp hn) h
  simp only [alternatives, List.forall_mem_cons] at hall
  obtain ⟨hnumber, hstring, hbool, hnull, harray, hobject, _⟩ := hall
  refine ⟨hn, refuses_value ?_ ?_ (lacks_word ?_ ?_) ?_ ?_⟩
  · exact (miss_number hs hnumber).2
  · exact (miss_string hs (Reader.miss_map hstring)).2
  · exact (Reader.miss_literals hs (Reader.miss_map hbool)).2
  · exact (Reader.rejects_literal_iff.mp (Reader.rejects_of_miss hs (Reader.miss_map hnull))).2
  · exact (missed_bracketed (by decide) hs hskip harray).2
  · exact (missed_bracketed (by decide) hs hskip hobject).2

theorem stopped_value {inside : List Bracket} (hst : st.Extends (.value inside))
    (hs : s <:+ rd.bytes) (h : rd.run value s = .fatal e) :
    StopsAt rd st (skip s) e ∧ ¬ Refuses (.value inside) (skip s) := by
  have hskipped := (skip_suffix s).trans hs
  obtain ⟨p, hp, h⟩ := Reader.fatal_choice (Reader.fatal_trim hs (value_eq ▸ h))
  simp only [alternatives, List.mem_cons, List.not_mem_nil, or_false] at hp
  rcases hp with rfl | rfl | rfl | rfl | rfl | rfl
  · obtain ⟨hoffset, hlarge⟩ := fatal_number hskipped h
    refine ⟨⟨st, skip s, .refl, hskipped, hoffset, .inl hlarge⟩, fun hrefuses => ?_⟩
    obtain ⟨token, u, _, heq, hended, _⟩ := hlarge
    cases hrefuses _ token u (.number hended) heq
  · exact absurd (Reader.fatal_map h) (not_fatal_string hskipped)
  · exact absurd (Reader.fatal_map h) (Reader.not_fatal_literals hskipped)
  · exact absurd (Reader.fatal_map h) (Reader.not_fatal_literal hskipped)
  · have hstop := stopped_bracketed (listing_array inside) (href _) (by decide) rfl hst hskipped
      (Reader.fatal_map h)
    rwa [skip_skip] at hstop
  · have hstop := stopped_bracketed (listing_object inside) (tracks_member href inside)
      (by decide) rfl hst hskipped (Reader.fatal_map h)
    rwa [skip_skip] at hstop

theorem tracks_value_of_ref (inside : List Bracket) :
    Tracks rd value (.value inside) (.done inside) where
  matched _ _ _ _ hst h := follows_value href hst h
  missed _ _ hs h := by
    have hskipped := (skip_suffix _).trans hs
    exact missed_alternatives inside hskipped (skip_skip _) (Reader.miss_trim hs (value_eq ▸ h))
  stopped _ _ _ hst hs h := (stopped_value href hst hs h).1

end Values

/-- Whatever the depth of references, they keep to the tokens that are due. -/
theorem tracks_ref (input : Input) (depth : Nat) (inside : List Bracket) :
    Tracks (definitions.reader depth input) (.ref Rule.value) (.value inside) (.done inside) := by
  induction depth generalizing inside with
  | zero =>
    -- A reference at depth zero is halted and comes to nothing that counts here.
    refine ⟨?_, ?_, ?_⟩
    · exact fun _ _ _ _ _ h => absurd h Definitions.not_reads_ref
    · exact fun _ _ _ h => nomatch h
    · exact fun _ _ _ _ _ h => nomatch h
  | succ depth ih =>
    have hvalue := tracks_value_of_ref ih inside
    refine ⟨?_, ?_, ?_⟩
    · exact fun _ _ _ _ hst h => hvalue.matched hst ((Definitions.reads_ref rfl).mp h)
    · exact fun _ _ hs h => hvalue.missed hs ((Definitions.run_ref rfl).symm.trans h)
    · exact fun _ _ _ hst hs h => hvalue.stopped hst hs ((Definitions.run_ref rfl).symm.trans h)

end Backtrack.Json
