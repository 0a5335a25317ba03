import Mathlib.Data.List.Nodup
import Backtrack.Regex.Cache

/-!
# One object for each pattern

Calls that share a cache take their steps in any order. Whoever comes first to keep an object for a
pattern decides for all others: what is kept is never given up, and a call that compiled an object
of its own in the meantime answers with the one that is kept. A ledger of the patterns that were
compiled so far tells for each serial number which pattern it belongs to.

This module does NOT show that a call ever gets a turn; it shows what three turns lead to.
-/

namespace Backtrack.Regex

/-- An object that was compiled from a pattern, as the ledger says. -/
structure Compiled.MadeFrom (ledger : List Bytes) (pattern : Bytes) (object : Compiled) : Prop where
  listed : ledger[object.serial]? = some pattern
  read : readAnchored pattern = .ok object.regex

theorem Compiled.MadeFrom.mono {ledger ledger' : List Bytes} {pattern : Bytes} {object : Compiled}
    (h : object.MadeFrom ledger pattern) (hledger : ledger <+: ledger') :
    object.MadeFrom ledger' pattern := by
  refine ⟨?_, h.read⟩
  obtain ⟨new, rfl⟩ := hledger
  obtain ⟨hlt, _⟩ := List.getElem?_eq_some_iff.mp h.listed
  rw [List.getElem?_append_left hlt]
  exact h.listed

namespace Cache

variable {ledger : List Bytes} {cache : Cache} {pattern : Bytes} {kept fresh : Compiled}

/-- A cache that keeps one object for each of its patterns, made from that pattern. -/
structure Sound (ledger : List Bytes) (cache : Cache) : Prop where
  counted : ledger.length = cache.made
  distinct : (cache.entries.map Prod.fst).Nodup
  made : ∀ entry ∈ cache.entries, entry.2.MadeFrom ledger entry.1

theorem mem_of_find? (h : cache.find? pattern = some kept) : (pattern, kept) ∈ cache.entries := by
  obtain ⟨before, after, hentries, _⟩ := List.lookup_eq_some_iff.mp h
  rw [hentries]
  exact List.mem_append_right before List.mem_cons_self

theorem notMem_of_find? (h : cache.find? pattern = none) :
    pattern ∉ cache.entries.map Prod.fst := by
  intro hmem
  obtain ⟨entry, hentry, rfl⟩ := List.mem_map.mp hmem
  have hdiffers := List.lookup_eq_none_iff.mp h entry hentry
  simp at hdiffers

theorem find?_of_mem (hdistinct : (cache.entries.map Prod.fst).Nodup)
    (h : (pattern, kept) ∈ cache.entries) : cache.find? pattern = some kept := by
  cases hfind : cache.find? pattern with
  | none =>
    have hmem : pattern ∈ cache.entries.map Prod.fst := List.mem_map_of_mem (f := Prod.fst) h
    exact absurd hmem (notMem_of_find? hfind)
  | some other =>
    have hsame := List.inj_on_of_nodup_map hdistinct (mem_of_find? hfind) h rfl
    exact congrArg some (Prod.mk.inj hsame).2

/-- The compiled object is new, and the ledger says what it was made from. -/
theorem Sound.make (h : cache.Sound ledger) {cache' : Cache}
    (hmake : cache.make pattern = .ok (fresh, cache')) :
    cache'.Sound (ledger ++ [pattern]) ∧ cache'.entries = cache.entries ∧
      fresh.MadeFrom (ledger ++ [pattern]) pattern := by
  unfold Cache.make at hmake
  cases hread : readAnchored pattern with
  | error e =>
    rw [hread] at hmake
    cases hmake
  | ok regex =>
    rw [hread] at hmake
    cases hmake
    refine ⟨⟨?_, h.distinct, ?_⟩, rfl, ?_, hread⟩
    · rw [List.length_append, h.counted]
      rfl
    · intro entry hentry
      exact (h.made entry hentry).mono (List.prefix_append _ _)
    · rw [← h.counted]
      exact List.getElem?_concat_length

theorem Sound.findOrInsert (h : cache.Sound ledger) (hfresh : fresh.MadeFrom ledger pattern) :
    (cache.findOrInsert pattern fresh).2.Sound ledger ∧
      cache.entries <:+ (cache.findOrInsert pattern fresh).2.entries ∧
      (pattern, (cache.findOrInsert pattern fresh).1) ∈
        (cache.findOrInsert pattern fresh).2.entries := by
  unfold Cache.findOrInsert
  cases hfind : cache.find? pattern with
  | some kept => exact ⟨h, List.suffix_refl _, mem_of_find? hfind⟩
  | none =>
    refine ⟨⟨h.counted, ?_, ?_⟩, List.suffix_cons _ _, List.mem_cons_self⟩
    · exact List.nodup_cons.mpr ⟨notMem_of_find? hfind, h.distinct⟩
    · exact List.forall_mem_cons.mpr ⟨hfresh, h.made⟩

end Cache

namespace Call

variable {ledger ledger' : List Bytes} {cache cache' : Cache} {call : Call}

/-- What a call knows is true: the object in its hands was made from its pattern, and its answer is
the object that is kept, or the reason why there is none. -/
inductive Fits (ledger : List Bytes) (cache : Cache) : Call → Prop where
  | asked {pattern : Bytes} : Fits ledger cache ⟨pattern, .asked⟩
  | absent {pattern : Bytes} : Fits ledger cache ⟨pattern, .absent⟩
  | made {pattern : Bytes} {fresh : Compiled} (h : fresh.MadeFrom ledger pattern) :
    Fits ledger cache ⟨pattern, .made fresh⟩
  | kept {pattern : Bytes} {kept : Compiled} (h : (pattern, kept) ∈ cache.entries) :
    Fits ledger cache ⟨pattern, .answered (.ok kept)⟩
  | refused {pattern : Bytes} {e : Error} (h : readAnchored pattern = .error e) :
    Fits ledger cache ⟨pattern, .answered (.error e)⟩

/-- The steps of other calls take nothing back. -/
theorem Fits.mono (h : call.Fits ledger cache) (hledger : ledger <+: ledger')
    (hentries : cache.entries <:+ cache'.entries) : call.Fits ledger' cache' := by
  cases h with
  | asked => exact .asked
  | absent => exact .absent
  | made h => exact .made (h.mono hledger)
  | kept h => exact .kept (hentries.subset h)
  | refused h => exact .refused h

theorem step_pattern (call : Call) (cache : Cache) :
    (call.step cache).1.pattern = call.pattern := by
  unfold step
  split
  · split <;> rfl
  · split <;> rfl
  · rfl
  · rfl

/-- All that a step can do: the cache stays sound and keeps what it had, and what the call knows
stays true. -/
theorem step_fits (hcache : cache.Sound ledger) (h : call.Fits ledger cache) :
    ∃ ledger', ledger <+: ledger' ∧ cache.entries <:+ (call.step cache).2.entries ∧
      (call.step cache).2.Sound ledger' ∧ (call.step cache).1.Fits ledger' (call.step cache).2 := by
  cases h with
  | @asked pattern =>
    refine ⟨ledger, List.prefix_refl _, ?_⟩
    unfold step
    dsimp only
    cases hfind : cache.find? pattern with
    | some kept => exact ⟨List.suffix_refl _, hcache, .kept (Cache.mem_of_find? hfind)⟩
    | none => exact ⟨List.suffix_refl _, hcache, .absent⟩
  | @absent pattern =>
    unfold step
    dsimp only
    cases hmake : cache.make pattern with
    | ok result =>
      obtain ⟨hsound, hentries, hfresh⟩ := hcache.make hmake
      refine ⟨_, List.prefix_append _ _, ?_, hsound, .made hfresh⟩
      exact hentries ▸ List.suffix_refl _
    | error e =>
      refine ⟨ledger, List.prefix_refl _, List.suffix_refl _, hcache, .refused ?_⟩
      unfold Cache.make at hmake
      cases hread : readAnchored pattern with
      | error e' =>
        rw [hread] at hmake
        cases hmake
        rfl
      | ok regex =>
        rw [hread] at hmake
        cases hmake
  | made hfresh =>
    obtain ⟨hsound, hentries, hkept⟩ := hcache.findOrInsert hfresh
    exact ⟨ledger, List.prefix_refl _, hentries, hsound, .kept hkept⟩
  | kept h => exact ⟨ledger, List.prefix_refl _, List.suffix_refl _, hcache, .kept h⟩
  | refused h => exact ⟨ledger, List.prefix_refl _, List.suffix_refl _, hcache, .refused h⟩

def rank (call : Call) : Nat :=
  match call.stage with
  | .asked => 0
  | .absent => 1
  | .made _ => 2
  | .answered _ => 3

theorem lt_rank_step (call : Call) (cache : Cache) :
    min 3 (call.rank + 1) ≤ (call.step cache).1.rank := by
  obtain ⟨pattern, stage⟩ := call
  cases stage with
  | asked | absent =>
    unfold step
    dsimp only
    split <;> simp [rank]
  | made => exact Nat.le_refl 3
  | answered => exact Nat.le_refl 3

theorem exists_answer (h : 3 ≤ call.rank) : ∃ answer, call.stage = .answered answer := by
  obtain ⟨pattern, stage⟩ := call
  cases stage with
  | answered answer => exact ⟨answer, rfl⟩
  | asked | absent | made => simp [rank] at h

end Call

namespace Session

variable {ledger : List Bytes} {s : Session}

/-- Calls for some patterns, none of which has taken a step, and an empty cache. -/
def ofPatterns (patterns : List Bytes) : Session :=
  { calls := patterns.map fun pattern => { pattern := pattern } }

structure Sound (ledger : List Bytes) (s : Session) : Prop where
  cache : s.cache.Sound ledger
  calls : ∀ call ∈ s.calls, call.Fits ledger s.cache

theorem sound_ofPatterns (patterns : List Bytes) : (ofPatterns patterns).Sound [] where
  cache := ⟨rfl, List.nodup_nil, nofun⟩
  calls := by
    intro call hcall
    obtain ⟨pattern, _, rfl⟩ := List.mem_map.mp hcall
    exact .asked

theorem Sound.advance (h : s.Sound ledger) (i : Nat) :
    ∃ ledger', ledger <+: ledger' ∧ s.cache.entries <:+ (s.advance i).cache.entries ∧
      (s.advance i).Sound ledger' := by
  unfold Session.advance
  cases hcall : s.calls[i]? with
  | none => exact ⟨ledger, List.prefix_refl _, List.suffix_refl _, h⟩
  | some call =>
    have hfits := h.calls call (List.mem_of_getElem? hcall)
    obtain ⟨ledger', hledger, hentries, hcache, hstep⟩ := call.step_fits h.cache hfits
    refine ⟨ledger', hledger, hentries, hcache, fun other hother => ?_⟩
    rcases List.mem_or_eq_of_mem_set hother with hother | rfl
    · exact (h.calls other hother).mono hledger hentries
    · exact hstep

/-- However the steps of the calls are mixed, the cache stays sound and gives up nothing. -/
theorem Sound.run (h : s.Sound ledger) (schedule : List Nat) :
    ∃ ledger', s.cache.entries <:+ (s.run schedule).cache.entries ∧
      (s.run schedule).Sound ledger' := by
  induction schedule generalizing s ledger with
  | nil => exact ⟨ledger, List.suffix_refl _, h⟩
  | cons i schedule ih =>
    obtain ⟨middle, _, hentries, hsound⟩ := h.advance i
    obtain ⟨ledger', hrest, hsound'⟩ := ih hsound
    exact ⟨ledger', hentries.trans hrest, hsound'⟩

theorem getElem?_advance (s : Session) (i j : Nat) :
    (s.advance i).calls[j]? =
      if i = j then (s.calls[j]?).map fun call => (call.step s.cache).1 else s.calls[j]? := by
  unfold advance
  by_cases hij : i = j
  · subst hij
    rw [if_pos rfl]
    cases hcall : s.calls[i]? with
    | none => simpa using hcall
    | some call =>
      obtain ⟨hlt, _⟩ := List.getElem?_eq_some_iff.mp hcall
      simp [hlt]
  · rw [if_neg hij]
    split
    · rfl
    · exact List.getElem?_set_ne hij

/-- A call keeps its pattern and comes as far as it gets turns. -/
theorem exists_call_run {i : Nat} {call : Call} (h : s.calls[i]? = some call)
    (schedule : List Nat) :
    ∃ call', (s.run schedule).calls[i]? = some call' ∧ call'.pattern = call.pattern ∧
      min 3 (call.rank + schedule.count i) ≤ call'.rank := by
  induction schedule generalizing s call with
  | nil => exact ⟨call, h, rfl, Nat.min_le_right _ _⟩
  | cons j schedule ih =>
    have hnext := s.getElem?_advance j i
    rw [h] at hnext
    by_cases hji : j = i
    · rw [if_pos hji, Option.map_some] at hnext
      obtain ⟨call', hcall', hpattern, hrank⟩ := ih hnext
      refine ⟨call', hcall', hpattern.trans (call.step_pattern _), ?_⟩
      have hstep := call.lt_rank_step s.cache
      rw [hji, List.count_cons_self]
      omega
    · rw [if_neg hji] at hnext
      obtain ⟨call', hcall', hpattern, hrank⟩ := ih hnext
      refine ⟨call', hcall', hpattern, ?_⟩
      rw [List.count_cons_of_ne hji]
      exact hrank

theorem getElem?_ofPatterns {patterns : List Bytes} {i : Nat} {pattern : Bytes}
    (h : patterns[i]? = some pattern) :
    (ofPatterns patterns).calls[i]? = some { pattern := pattern } := by
  simp [ofPatterns, h]

theorem length_run (s : Session) (schedule : List Nat) :
    (s.run schedule).calls.length = s.calls.length := by
  induction schedule generalizing s with
  | nil => rfl
  | cons i schedule ih =>
    refine (ih (s.advance i)).trans ?_
    unfold advance
    split
    · rfl
    · exact List.length_set

/-- Every call belongs to one of the patterns that were asked for. -/
theorem pattern_of_call {patterns : List Bytes} {schedule : List Nat} {i : Nat} {call : Call}
    (h : ((ofPatterns patterns).run schedule).calls[i]? = some call) :
    patterns[i]? = some call.pattern := by
  obtain ⟨hlt, _⟩ := List.getElem?_eq_some_iff.mp h
  rw [length_run, ofPatterns, List.length_map] at hlt
  have hpattern := List.getElem?_eq_getElem hlt
  obtain ⟨call', hcall', hsame, _⟩ := exists_call_run (getElem?_ofPatterns hpattern) schedule
  rw [h] at hcall'
  cases hcall'
  rw [hpattern, hsame]

/-- A call that no other call interrupts is `Cache.compile`. -/
theorem run_alone (cache : Cache) (pattern : Bytes) :
    let s : Session := run { cache := cache, calls := [{ pattern := pattern }] } [0, 0, 0]
    s.calls = [⟨pattern, .answered ((cache.compile pattern).map Prod.fst)⟩] ∧
      ∀ kept cache', cache.compile pattern = .ok (kept, cache') → s.cache = cache' := by
  simp only [run, List.foldl_cons, List.foldl_nil, advance, Call.step, Cache.compile,
    List.getElem?_cons_zero, List.set_cons_zero]
  cases cache.find? pattern with
  | some kept =>
    refine ⟨rfl, ?_⟩
    rintro _ _ ⟨⟩
    rfl
  | none =>
    dsimp only
    cases cache.make pattern with
    | error e => exact ⟨rfl, nofun⟩
    | ok result =>
      refine ⟨rfl, fun kept cache' hkept => ?_⟩
      exact congrArg Prod.snd (Except.ok.inj hkept)

end Session

/-- In every state that calls for any patterns can reach together: there is at most one entry for a
pattern, it holds an object compiled from that pattern, and it stays as it is for ever. A pattern
that cannot be read has no entry. Every answer is what reading the pattern gives, an object or the
error, and an object is the one kept. So two calls are answered by one object if their patterns are
the same, and only then. Three turns are enough for a call to be answered. -/
theorem one_object_per_pattern (patterns : List Bytes) (schedule : List Nat) :
    let s : Session := (Session.ofPatterns patterns).run schedule
    (s.cache.entries.map Prod.fst).Nodup ∧
    (∀ later, s.cache.entries <:+ (s.run later).cache.entries) ∧
    (∀ pattern kept, (pattern, kept) ∈ s.cache.entries → readAnchored pattern = .ok kept.regex) ∧
    (∀ pattern e, readAnchored pattern = .error e → s.cache.find? pattern = none) ∧
    (∀ (i : Nat) pattern answer, s.calls[i]? = some ⟨pattern, .answered answer⟩ →
      patterns[i]? = some pattern ∧ answer.map Compiled.regex = readAnchored pattern ∧
      ∀ kept, answer = .ok kept → s.cache.find? pattern = some kept) ∧
    (∀ (i j : Nat) pattern pattern' kept kept',
      s.calls[i]? = some ⟨pattern, .answered (.ok kept)⟩ →
      s.calls[j]? = some ⟨pattern', .answered (.ok kept')⟩ →
      (pattern = pattern' → kept = kept') ∧ (kept.serial = kept'.serial → pattern = pattern')) ∧
    ∀ (i : Nat) pattern, patterns[i]? = some pattern → 3 ≤ schedule.count i →
      ∃ answer, s.calls[i]? = some ⟨pattern, .answered answer⟩ := by
  intro s
  obtain ⟨ledger, _, hsound⟩ := (Session.sound_ofPatterns patterns).run schedule
  have hfits : ∀ {i : Nat} {pattern stage}, s.calls[i]? = some ⟨pattern, stage⟩ →
      Call.Fits ledger s.cache ⟨pattern, stage⟩ :=
    fun h => hsound.calls _ (List.mem_of_getElem? h)
  have hkept : ∀ {i : Nat} {pattern kept}, s.calls[i]? = some ⟨pattern, .answered (.ok kept)⟩ →
      (pattern, kept) ∈ s.cache.entries := by
    intro i pattern kept h
    cases hfits h with
    | kept h => exact h
  have hread : ∀ pattern kept, (pattern, kept) ∈ s.cache.entries →
      readAnchored pattern = .ok kept.regex :=
    fun _ _ h => (hsound.cache.made _ h).read
  refine ⟨hsound.cache.distinct, fun later => ?_, hread, ?_, ?_, ?_, ?_⟩
  · obtain ⟨_, hentries, _⟩ := hsound.run later
    exact hentries
  · intro pattern e he
    cases hfind : s.cache.find? pattern with
    | none => rfl
    | some kept =>
      have hok := hread pattern kept (Cache.mem_of_find? hfind)
      rw [he] at hok
      cases hok
  · intro i pattern answer h
    refine ⟨Session.pattern_of_call h, ?_, ?_⟩
    · cases hfits h with
      | kept hmem => exact (hread _ _ hmem).symm
      | refused he => exact he.symm
    · rintro kept rfl
      exact Cache.find?_of_mem hsound.cache.distinct (hkept h)
  · intro i j pattern pattern' kept kept' hi hj
    refine ⟨?_, fun hserial => ?_⟩
    · rintro rfl
      have hsame := Cache.find?_of_mem hsound.cache.distinct (hkept hi)
      rw [Cache.find?_of_mem hsound.cache.distinct (hkept hj)] at hsame
      exact (Option.some.inj hsame).symm
    · have hlisted := (hsound.cache.made _ (hkept hi)).listed
      rw [hserial, (hsound.cache.made _ (hkept hj)).listed] at hlisted
      exact (Option.some.inj hlisted).symm
  · intro i pattern hpattern hturns
    obtain ⟨⟨pattern', stage⟩, hcall, rfl, hrank⟩ :=
      Session.exists_call_run (Session.getElem?_ofPatterns hpattern) schedule
    obtain ⟨answer, rfl⟩ := Call.exists_answer (Nat.le_trans (by omega) hrank)
    exact ⟨answer, hcall⟩

/-- Two calls miss the cache and compile the same pattern. The second is the first to keep its
object, so the first answers with that one and drops its own. -/
theorem one_object_per_pattern_race :
    let s : Session := (Session.ofPatterns ["a+", "a+", "("]).run [0, 1, 1, 1, 0, 2, 0, 2, 2]
    s.cache.made = 2 ∧ s.cache.find? "(" = none ∧
    ∃ kept e, s.calls[0]? = some ⟨"a+", .answered (.ok kept)⟩ ∧
      s.calls[1]? = some ⟨"a+", .answered (.ok kept)⟩ ∧
      s.calls[2]? = some ⟨"(", .answered (.error e)⟩ := by
  intro s
  have hmade : s.cache.made = 2 := by decide +kernel
  have hgood : (readAnchored "a+").toBool = true := by decide +kernel
  have hbad : (readAnchored "(").toBool = false := by decide +kernel
  obtain ⟨_, _, _, huncached, hanswer, hsame, hprogress⟩ :=
    one_object_per_pattern ["a+", "a+", "("] [0, 1, 1, 1, 0, 2, 0, 2, 2]
  obtain ⟨first, hfirst⟩ := hprogress 0 "a+" rfl (by decide)
  obtain ⟨second, hsecond⟩ := hprogress 1 "a+" rfl (by decide)
  obtain ⟨third, hthird⟩ := hprogress 2 "(" rfl (by decide)
  have hfirstRead := (hanswer 0 _ _ hfirst).2.1
  have hsecondRead := (hanswer 1 _ _ hsecond).2.1
  have hthirdRead := (hanswer 2 _ _ hthird).2.1
  cases third with
  | ok other =>
    rw [← hthirdRead] at hbad
    cases hbad
  | error e =>
    cases first with
    | error e' =>
      rw [← hfirstRead] at hgood
      cases hgood
    | ok kept =>
      cases second with
      | error e' =>
        rw [← hsecondRead] at hgood
        cases hgood
      | ok other =>
        obtain rfl := (hsame 0 1 _ _ _ _ hfirst hsecond).1 rfl
        exact ⟨hmade, huncached "(" e hthirdRead.symm, kept, e, hfirst, hsecond, hthird⟩

end Backtrack.Regex
