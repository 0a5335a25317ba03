import Backtrack.Proofs.Ebnf.Trees
import Backtrack.Proofs.Xml.Failures

/-!
# Grammars that commit

The grammar of documents and the grammar of grammar texts say what was expected wherever they know
what stands in front of them. An XML text is reported as unexpected only where no tag of a root
opens, or behind a complete document; a grammar text never is.

This module does NOT say which of the possible errors a text has.
-/

namespace Backtrack

namespace Ebnf.Tree

variable {rd : Backtrack.Reader Rule.type} {s u : Bytes} {d : Document}

/-- A document is read up to the end of the text. -/
theorem eq_nil_of_reads_document (h : rd.Reads document s d u) : u = [] := by
  obtain ⟨_, m, _, hend⟩ := Backtrack.Reader.reads_skipRight.mp h
  exact (Backtrack.Reader.reads_atEnd.mp ((Backtrack.Reader.reads_expect _).mp hend)).2.2

theorem not_rejects_document : ¬ rd.Rejects document s := by
  intro h
  rcases Backtrack.Reader.rejects_skipRight_iff.mp h with hstart | ⟨_, _, _, hend⟩
  · rcases Backtrack.Reader.rejects_skipLeft_iff.mp hstart with hspaces | ⟨_, _, _, hmany⟩
    · exact Backtrack.Reader.not_rejects_many0 hspaces
    · exact Backtrack.Reader.not_rejects_many0 hmany
  · exact Backtrack.Reader.not_rejects_commit hend

/-- A grammar text is read to its end, or the grammar raises an error. -/
theorem parse_cases (filename text : Bytes) :
    (∃ d, (parse filename text).result = .ok (.ok d) ∧
      (parser (Input.ofBytes filename text) 0).outcome = .success d text.length) ∨
    ∃ e : ParseError, (parse filename text).result = .ok (.error e.toError) := by
  let input := Input.ofBytes filename text
  have hs : text <:+ (definitions.reader (Definitions.depth 1 input) input).bytes :=
    List.suffix_rfl
  have hrun : (definitions.reader (Definitions.depth 1 input) input).run document text =
      (parser input 0).outcome := Definitions.run_start input
  cases houtcome : (parser input 0).outcome with
  | success d next =>
    obtain ⟨u, hread, _⟩ := Backtrack.Reader.reads_of_success hs (hrun.trans houtcome)
    obtain rfl := eq_nil_of_reads_document hread
    refine .inl ⟨d, Definitions.evaluate_named_eq_ok.mpr hread, ?_⟩
    rw [← houtcome, ← hrun]
    exact hread.matched
  | miss next => exact absurd ⟨hs, next, hrun.trans houtcome⟩ not_rejects_document
  | fatal e => exact .inr ⟨e, Parser.evaluate_of_fatal rfl houtcome⟩
  | halted why =>
    obtain ⟨result, hresult⟩ := parse_isOk filename text
    have hhalted : (parse filename text).result = (parser input 0).outcome.judge input false := rfl
    rw [houtcome, hresult] at hhalted
    cases hhalted

end Ebnf.Tree

/-- Reading an XML text ends with a root or with one of four failures, and the place where a root is
due is the only one where a text can be missed: it is reported as unexpected, other than for what
follows a document, exactly if no tag opens there. Reading a grammar text ends with a tree of all of
it or with an error that the grammar raised. -/
theorem parse_commits :
    (∀ text : Bytes,
      ((∃ root, (Xml.parse text []).result = .ok (.ok root)) ∨
        ∃ error, (Xml.parse text []).result = .ok (.error error) ∧ Xml.Failure text error) ∧
      ((∃ position near, (Xml.parse text []).result =
          .ok (.error (.unexpected position near false))) ↔
        ∃ u, Xml.Leading text u ∧ ¬ Xml.Opens u) ∧
      ∀ u u', Xml.Leading text u → Xml.Leading text u' → u = u') ∧
    ∀ filename text : Bytes,
      (∃ d, (Ebnf.Tree.parse filename text).result = .ok (.ok d) ∧
        (Ebnf.Tree.parser (Input.ofBytes filename text) 0).outcome = .success d text.length) ∨
      ∃ e : ParseError, (Ebnf.Tree.parse filename text).result = .ok (.error e.toError) := by
  refine ⟨fun text => ⟨?_, Xml.parse_unexpected_iff, fun _ _ h h' => h.unique h'⟩,
    Ebnf.Tree.parse_cases⟩
  obtain ⟨result, hresult⟩ := Xml.parse_isOk text []
  cases result with
  | ok root => exact .inl ⟨root, hresult⟩
  | error error => exact .inr ⟨error, hresult, Xml.failure_of_parse hresult⟩

end Backtrack
