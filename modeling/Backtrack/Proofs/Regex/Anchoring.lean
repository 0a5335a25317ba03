import Backtrack.Proofs.Parser.Bounds
import Backtrack.Proofs.Regex.Sharing
import Backtrack.Proofs.Regex.Thorough
import Backtrack.Proofs.Regex.Wrapping

/-!
# What an anchored pattern reads

The object that is kept for a pattern is sought in what is left of a text, and the parser made from
it takes everything up to the end of what is found. For a pattern that can be read alone this is a
match of the pattern that starts where the parser does, the preferred one, and none is missed.

A pattern that closes the group around it escapes from the anchor. It is accepted all the same.
-/

namespace Backtrack

namespace Regex

open Text

section Chains

variable {β : Type} {text : Array UInt8} {start : Nat} {r s : Regex} {t : Bytes}
variable {k : Bytes → Option β}

theorem isAnchored_append : (append r s).isAnchored = r.isAnchored := by
  induction s with
  | seq s t ih => exact ih
  | _ => rfl

theorem tries_append : tries text start (append r s) t k =
    r.tries text start t fun u => s.tries text start u k := by
  induction s generalizing k with
  | seq s s' ih =>
    rw [append, tries_seq, ih]
    congr
    funext u
    exact tries_seq.symm
  | _ => exact tries_seq

/-- A search through the matches of a chain goes through those of its first expression, and from
the end of each on through those of the rest. -/
theorem tries_chain (r : Regex) (rs : List Regex) :
    tries text start (rs.foldl append r) t k =
      r.tries text start t fun u => (seqs rs).tries text start u k := by
  induction rs generalizing r t with
  | nil =>
    refine findSome?_congr fun q _ => ?_
    have hsuffix := List.drop_suffix q text.toList
    show k (text.toList.drop q) = (seqs []).tries text start (text.toList.drop q) k
    simp only [seqs, tries, ends, List.findSome?_singleton, drop_placeOf hsuffix]
  | cons s rs ih =>
    rw [List.foldl_cons, ih, tries_append]
    congr
    funext u
    exact (ih s).symm

theorem isAnchored_chain (r : Regex) (rs : List Regex) :
    (rs.foldl append r).isAnchored = r.isAnchored := by
  induction rs generalizing r with
  | nil => rfl
  | cons s rs ih => rw [List.foldl_cons, ih, isAnchored_append]

end Chains

/-- An expression behind the beginning of the text is matched there and nowhere else. -/
theorem findEnd?_anchored (text : Array UInt8) (rs : List Regex) :
    (seqs (.check .beginText :: rs)).findEnd? text 0 = ((seqs rs).ends text 0 0).head? := by
  have hplace : placeOf text text.toList = 0 := by simp [placeOf]
  have hanchored : (seqs (.check .beginText :: rs)).isAnchored = true := isAnchored_chain _ rs
  have hhead : ((seqs rs).ends text (placeOf text text.toList) (placeOf text text.toList)).head? =
      _ := head?_ends text.toList
  have hfind : (seqs (.check .beginText :: rs)).findEnd? text (placeOf text text.toList) = _ :=
    findEnd?_eq hanchored
  rw [hplace] at hhead hfind
  have hholds : Assertion.holds text 0 (placeOf text text.toList) .beginText = true := by
    rw [hplace]
    rfl
  rw [hfind, hhead, seqs, tries_chain, tries_check (List.suffix_refl _), if_pos hholds]

end Regex

namespace Parser

open Regex

/-- What a parser for an anchored expression makes of the text from a place on. -/
theorem pattern_anchored (rs : List Regex) (input : Input) {pos : Nat} (hpos : pos ≤ input.size) :
    pattern (seqs (.check .beginText :: rs)) input pos =
      match ((seqs rs).ends (input.text.extract pos input.size) 0 0).head? with
      | some n => .success ((input.text.extract pos input.size).toList.take n) (pos + n)
      | none => .miss pos := by
  have hpos' : pos ≤ input.text.size := hpos
  have hsplit : input.text = input.text.extract 0 pos ++ input.text.extract pos input.size := by
    rw [Array.extract_append_extract, Nat.min_eq_left (Nat.zero_le _), Nat.max_eq_right hpos]
    exact Array.extract_size.symm
  have hsize : (input.text.extract 0 pos).size = pos := by
    rw [Array.size_extract]
    omega
  have hfind := findEnd?_append (input.text.extract 0 pos) (input.text.extract pos input.size) 0
    (seqs (.check .beginText :: rs)) (Nat.zero_le _)
  rw [← hsplit, hsize, findEnd?_anchored, Nat.add_zero] at hfind
  have hplace : input.place? pos = .ok pos := by
    rw [Input.place?_eq _ (Int.natCast_nonneg pos) (Int.ofNat_le.mpr hpos), Int.toNat_natCast]
  unfold pattern
  rw [hplace]
  dsimp only [Run.ofExcept]
  rw [hfind]
  cases ((seqs rs).ends (input.text.extract pos input.size) 0 0).head? with
  | none => rfl
  | some n =>
    have hslice : input.slice pos (pos + n) =
        (input.text.extract pos input.size).toList.take n := by
      have hrest : (input.text.toList.drop pos).length ≤ input.size - pos := by
        rw [List.length_drop]
        exact Nat.le_refl _
      rw [Input.slice, Array.toList_extract, Array.toList_extract, List.extract_eq_take_drop,
        List.extract_eq_take_drop, Nat.add_sub_cancel_left, List.take_of_length_le hrest]
    dsimp only [Option.map_some]
    rw [hslice, Int.natCast_add]

/-- A call that is alone is answered by what its pattern is compiled to. -/
theorem answered_alone {pattern : Bytes} {regex : Regex} (h : readAnchored pattern = .ok regex) :
    ((Session.ofPatterns [pattern]).run [0, 0, 0]).calls[0]? =
      some ⟨pattern, .answered (.ok ⟨0, regex⟩)⟩ := by
  have hcalls := (Session.run_alone {} pattern).1
  have hcompile : Cache.compile {} pattern =
      .ok (⟨0, regex⟩, { entries := [(pattern, ⟨0, regex⟩)], made := 1 }) := by
    simp [Cache.compile, Cache.make, h]
    rfl
  rw [hcompile] at hcalls
  rw [Session.ofPatterns]
  show (Session.run ⟨{}, [⟨pattern, .asked⟩]⟩ [0, 0, 0]).calls[0]? = _
  rw [hcalls]
  rfl

/-- A pattern may be accepted because it closes the group that is put around it, and then it is no
regular expression by itself. Every other pattern that is accepted is one. Then, however the calls
took turns, the parser made from the object that a call for the pattern is answered with consumes
what the expression matches at the start of what is left of the text, the preferred match, and it
misses where the expression matches nothing there. -/
theorem pattern_consumes_match (patterns : List Bytes) (schedule : List Nat) (i : Nat)
    (pattern : Bytes) (object : Compiled)
    (h : ((Session.ofPatterns patterns).run schedule).calls[i]? =
      some ⟨pattern, .answered (.ok object)⟩) :
    (∃ piece, read pattern = .error ⟨.unexpectedParen, piece⟩) ∨
      ∃ r, read pattern = .ok r ∧ ∀ (input : Input) (pos : Nat), pos ≤ input.size →
        let left := input.text.extract pos input.size
        (∀ value next, (Parser.pattern object.regex input pos).outcome = .success value next →
          ∃ n, r.Matches left 0 0 n ∧ (r.ends left 0 0).head? = some n ∧
            next = pos + n ∧ value = left.toList.take n) ∧
        ((∃ n, r.Matches left 0 0 n) →
          ∃ value next, (Parser.pattern object.regex input pos).outcome = .success value next) ∧
        ((∀ n, ¬ r.Matches left 0 0 n) →
          (Parser.pattern object.regex input pos).outcome = .miss pos) := by
  obtain ⟨ledger, -, hsound⟩ := (Session.sound_ofPatterns patterns).run schedule
  have hanchored : readAnchored pattern = .ok object.regex := by
    cases hsound.calls _ (List.mem_of_getElem? h) with
    | kept hmem => exact (hsound.cache.made _ hmem).read
  rcases read_of_readAnchored hanchored with ⟨rs, hread, hregex⟩ | hparen
  · refine .inr ⟨seqs rs, hread, ?_⟩
    intro input pos hpos left
    rw [hregex, pattern_anchored rs input hpos]
    cases hhead : ((seqs rs).ends left 0 0).head? with
    | some n =>
      have hmatch := matches_of_mem_ends (List.mem_of_head? hhead)
      refine ⟨?_, fun _ => ⟨_, _, rfl⟩, fun hnone => absurd hmatch (hnone n)⟩
      intro value next hsuccess
      obtain ⟨rfl, rfl⟩ := Outcome.success.inj hsuccess
      exact ⟨n, hmatch, rfl, rfl, rfl⟩
    | none =>
      have hnone : ∀ n, ¬ (seqs rs).Matches left 0 0 n := by
        intro n hmatch
        have hmem := (mem_ends_iff (Nat.zero_le _)).mpr hmatch
        rw [List.head?_eq_none_iff.mp hhead] at hmem
        cases hmem
      refine ⟨fun value next hsuccess => ?_, fun ⟨n, hn⟩ => absurd hn (hnone n), fun _ => rfl⟩
      cases hsuccess
  · exact .inl hparen

/-- Alternatives are not sought further on: neither letter stands at the start of the text. One
place further on, the second is read. -/
theorem pattern_consumes_match_alternative :
    ∃ object, ((Session.ofPatterns ["a|b"]).run [0, 0, 0]).calls[0]? =
        some ⟨"a|b", .answered (.ok object)⟩ ∧
      (Parser.pattern object.regex (Input.ofBytes [] "xb") 0).outcome = .miss 0 ∧
      (Parser.pattern object.regex (Input.ofBytes [] "xb") 1).outcome = .success "b" 2 := by
  have haccepted : (readAnchored "a|b").toBool = true := by decide +kernel
  cases hanchored : readAnchored "a|b" with
  | error e =>
    rw [hanchored] at haccepted
    cases haccepted
  | ok regex =>
    have hcall := answered_alone hanchored
    refine ⟨_, hcall, ?_⟩
    have hends : ((read "a|b").toOption.map fun r => (r.ends ("xb" : Bytes).toArray 0 0,
        r.ends ("b" : Bytes).toArray 0 0)) = some ([], [1]) := by decide +kernel
    rcases pattern_consumes_match ["a|b"] [0, 0, 0] 0 "a|b" _ hcall with
      ⟨piece, hread⟩ | ⟨r, hread, hconsumes⟩
    · rw [hread] at hends
      cases hends
    · rw [hread] at hends
      obtain ⟨hfirst, hsecond⟩ := Prod.mk.inj (Option.some.inj hends)
      obtain ⟨-, -, hmiss⟩ := hconsumes (Input.ofBytes [] "xb") 0 (by decide)
      obtain ⟨hsound, hcomplete, -⟩ := hconsumes (Input.ofBytes [] "xb") 1 (by decide)
      constructor
      · refine hmiss fun n hn => ?_
        have hmem : n ∈ r.ends ("xb" : Bytes).toArray 0 0 := (mem_ends_iff (Nat.zero_le _)).mpr hn
        rw [hfirst] at hmem
        cases hmem
      · have hone : r.Matches ("b" : Bytes).toArray 0 0 1 :=
          matches_of_mem_ends (by rw [hsecond]; simp)
        obtain ⟨value, next, hsuccess⟩ := hcomplete ⟨1, hone⟩
        obtain ⟨n, -, hhead, rfl, rfl⟩ := hsound value next hsuccess
        have hn : (r.ends ("b" : Bytes).toArray 0 0).head? = some n := hhead
        rw [hsecond] at hn
        cases hn
        exact hsuccess

/-- A pattern that closes the group around it and opens another one, so that its second alternative
is not anchored. It is no regular expression, and yet the parser made from it reads two letters of
which the pattern mentions only the second. -/
theorem pattern_consumes_unmatched :
    (∀ r, read "a)|(?:b" ≠ .ok r) ∧
    ∃ object, ((Session.ofPatterns ["a)|(?:b"]).run [0, 0, 0]).calls[0]? =
        some ⟨"a)|(?:b", .answered (.ok object)⟩ ∧
      (Parser.pattern object.regex (Input.ofBytes [] "xb") 0).outcome = .success "xb" 2 := by
  constructor
  · intro r hr
    have hrefused : (read "a)|(?:b").toBool = false := by decide +kernel
    rw [hr] at hrefused
    cases hrefused
  · have hread : (readAnchored "a)|(?:b").toOption =
        some (.alt (.seq (.check .beginText) (.chars (.ranges [(97, 97)])))
          (.chars (.ranges [(98, 98)]))) := by decide +kernel
    cases hanchored : readAnchored "a)|(?:b" with
    | error e =>
      rw [hanchored] at hread
      cases hread
    | ok regex =>
      rw [hanchored] at hread
      obtain rfl := Option.some.inj hread
      have hx : Utf8.at? (Input.ofBytes [] "xb").text 0 = some ('x', 1) := by decide +kernel
      have hb : Utf8.at? (Input.ofBytes [] "xb").text 1 = some ('b', 1) := by decide +kernel
      have hsize : (Input.ofBytes [] "xb").text.size = 2 := rfl
      refine ⟨_, answered_alone hanchored, ?_⟩
      have hplace : (Input.ofBytes [] "xb").place? 0 = .ok 0 := rfl
      unfold Parser.pattern
      rw [hplace]
      simp [Run.ofExcept, findEnd?, isAnchored, search, ends, hx, hb, hsize, continueFrom,
        firsts_nil, firsts_singleton, Assertion.holds, CharClass.contains]
      rfl

end Parser

end Backtrack
