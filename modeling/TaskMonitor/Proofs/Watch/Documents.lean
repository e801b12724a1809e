import TaskMonitor.Proofs.Json.Pretty
import TaskMonitor.Proofs.Watch.Reports

/-! Reports in JSON, one after the other. An empty line stands between two documents and nowhere
else, so that the documents are got back by cutting the text at its empty lines. -/

set_option autoImplicit false

namespace TaskMonitor

open Text (Lined paragraphs)

theorem lined_document (snapshot : Snapshot) : Lined snapshot.normalize.document.pretty :=
  Json.lined_prettyAt 0 _

theorem paragraphs_reports (earlier : List Snapshot) (last : Snapshot) :
    paragraphs (reports .json (earlier ++ [last])) =
      earlier.map (·.normalize.document.pretty) ++ [last.write .json] := by
  induction earlier with
  | nil =>
    have alone : reports .json [last] = last.normalize.document.pretty ++ ['\n'] := by
      simp [reports, Snapshot.write, Report.write, Report.json]
    rw [List.nil_append, alone, (lined_document last).paragraphs_append]
    rfl
  | cons snapshot earlier ih =>
    rw [List.cons_append, reports_more .json snapshot (by simp), Snapshot.write, Report.write,
      Report.json, List.append_assoc, (lined_document snapshot).paragraphs_append,
      List.singleton_append, Text.paragraphs_blank, ih, List.modifyHead_cons, List.append_nil]
    rfl

/-- However many reports are printed in JSON, cutting the output at two line feeds in a row gives
the documents, in their order; the last keeps the line feed at its end. Each document is an object
with no empty line in it, and one line feed after it. -/
theorem watch_json_paragraphs (earlier : List Snapshot) (last : Snapshot)
    (rest : List (Except FetchError Snapshot)) (failure : FetchError)
    (fails : thenClosed rest 0 = .error failure) (cycles : Nat)
    (enough : (earlier ++ [last]).length ≤ cycles) :
    let snapshots := earlier ++ [last]
    let fetch := thenClosed (snapshots.map .ok ++ rest)
    let printed := watch .json fetch cycles
    (∀ period : Duration, 0 < period.nanoseconds →
        Command.report .json (some period) cycles fetch = .ofPrinted printed ∧
          (Command.report .json (some period) cycles fetch).output = printed.output) ∧
      paragraphs printed.output =
        earlier.map (·.normalize.document.pretty) ++ [last.write .json] ∧
      ∀ snapshot ∈ snapshots,
        let document := snapshot.normalize.document.pretty
        snapshot.write .json = document ++ ['\n'] ∧
          (∃ inner, document = '\x7b' :: inner ++ ['\x7d']) ∧
          ¬ ['\n', '\n'] <:+: snapshot.write .json := by
  refine ⟨fun period some => ?_, ?_,
    fun snapshot _ => ⟨rfl, Json.pretty_object _, (lined_document snapshot).no_blank⟩⟩
  · rw [report_watch some]
    exact ⟨rfl, ofPrinted_output _⟩
  obtain ⟨more, rfl⟩ := Nat.exists_eq_add_of_le enough
  have stops := (thenClosed_append (earlier ++ [last]) rest).trans fails
  have nothing : (watchFrom .json (thenClosed ((earlier ++ [last]).map .ok ++ rest))
      (earlier ++ [last]).length more).output = [] := by
    cases more with
    | zero => rfl
    | succ more =>
      rw [watchFrom_error .json stops]
      rfl
  rw [(gives_thenClosed (earlier ++ [last]) rest).watch, nothing, List.append_nil]
  exact paragraphs_reports earlier last

/-- A name with empty lines, quotes and braces, a report without rows, then a timeout. -/
theorem watch_json_paragraphs_escaped :
    let first : Snapshot :=
      { tasks := [⟨7, "\n\n\x7d\n\n\"\x7b", .running, .ofNumber 0, 3, 5, 64⟩], runTime := 9 }
    let last : Snapshot := { tasks := [], runTime := 0 }
    let outcomes := [.ok first, .ok last, .error (.timeout .calling 2000)]
    paragraphs (Command.report .json (some ⟨1⟩) 3 (thenClosed outcomes)).output =
      [first.normalize.document.pretty, last.write .json] := by
  intro first last outcomes
  obtain ⟨command, cut, _⟩ := watch_json_paragraphs [first] last
    [.error (.timeout .calling 2000)] (.timeout .calling 2000) rfl 3 (by decide)
  have output : (Command.report .json (some ⟨1⟩) 3 (thenClosed outcomes)).output = _ :=
    (command ⟨1⟩ (by decide)).2
  rw [output]
  exact cut

end TaskMonitor
