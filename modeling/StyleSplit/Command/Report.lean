import StyleSplit.Diagnostic.Snippet
import StyleSplit.Outcome

/-! Reports on the stylesheets of a run. -/

namespace StyleSplit

inductive ReportFormat where
  | text
  | json
  deriving DecidableEq, Repr

structure Report where
  document : Document
  outcome : Outcome
  written : List String

namespace Report

def toText (report : Report) : String :=
  String.join (report.outcome.diagnostics.map fun diagnostic =>
    diagnostic.toText (some report.document.text) ++ "\n\n")

def toJson (report : Report) : Json :=
  .record [("path", .ofText report.outcome.path),
    ("outputs", .array (report.written.map .ofText)),
    ("diagnostics", .array (report.outcome.diagnostics.map Diagnostic.toJson))]

end Report

end StyleSplit
