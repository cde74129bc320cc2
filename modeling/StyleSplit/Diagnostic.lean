import StyleSplit.Json.Decode
import StyleSplit.Stylesheet.Rule

/-! Messages for the user: what went wrong, the details, and what to try. -/

namespace StyleSplit

inductive Severity where
  | error
  | warning
  deriving DecidableEq, Repr

inductive DetailKind where
  | error
  | info
  deriving DecidableEq, Repr

structure Detail where
  kind : DetailKind
  content : String
  deriving DecidableEq, Repr

structure Location where
  path : String
  span : Span
  deriving DecidableEq, Repr

structure Diagnostic where
  code : Option String := none
  title : String
  severity : Severity
  problem : Option String := none
  details : List Detail := []
  hints : List String := []
  location : Option Location := none
  deriving DecidableEq, Repr

def Severity.label : Severity → String
  | error => "Error"
  | warning => "Warning"

def DetailKind.bullet : DetailKind → String
  | error => "✖"
  | info => "ℹ"

namespace Diagnostic

def isError (diagnostic : Diagnostic) : Bool :=
  diagnostic.severity == .error

def heading (diagnostic : Diagnostic) : List String :=
  let code := diagnostic.code.elim "" fun code => " [" ++ code ++ "]"
  (diagnostic.severity.label ++ code ++ ": " ++ diagnostic.title) ::
    diagnostic.problem.toList

def remarks (diagnostic : Diagnostic) : List String :=
  diagnostic.details.map (fun detail => detail.kind.bullet ++ " " ++ detail.content) ++
    diagnostic.hints.map ("? " ++ ·)

/-! The form in JSON. -/

def severities : List (String × Severity) :=
  [("error", .error), ("warning", .warning)]

def detailKinds : List (String × DetailKind) :=
  [("error", .error), ("info", .info)]

def nameIn [BEq α] (constants : List (String × α)) (value : α) : String :=
  ((constants.find? (·.2 == value)).map (·.1)).getD ""

def detailJson (detail : Detail) : Json :=
  .record [("kind", .ofText (nameIn detailKinds detail.kind)),
    ("content", .ofText detail.content)]

def locationJson (location : Location) : Json :=
  .record [("path", .ofText location.path),
    ("range", .record [("start", .ofNat location.span.start),
      ("end", .ofNat location.span.stop)])]

/-- What is absent or empty is left out. -/
def toJson (diagnostic : Diagnostic) : Json :=
  let optional (name : String) (value : Option Json) : List (String × Json) :=
    value.toList.map (name, ·)
  let items (name : String) (values : List Json) : List (String × Json) :=
    if values.isEmpty then [] else [(name, .array values)]
  .record (optional "code" (diagnostic.code.map .ofText) ++
    [("title", .ofText diagnostic.title),
      ("kind", .ofText (nameIn severities diagnostic.severity))] ++
    optional "problem" (diagnostic.problem.map .ofText) ++
    items "details" (diagnostic.details.map detailJson) ++
    items "hints" (diagnostic.hints.map .ofText) ++
    optional "location" (diagnostic.location.map locationJson))

def detail? (json : Json) : Option Detail := do
  match ← json.fields? ["kind", "content"] .ignored with
  | [kind, content] =>
      some {
        kind := ← Json.required? (Json.constant? detailKinds) kind
        content := ← Json.required? Json.text? content }
  | _ => none

def span? (json : Json) : Option Span := do
  match ← json.fields? ["start", "end"] .refused with
  | [start, stop] =>
      some {
        start := ← Json.required? (Json.natural? UInt64.size) start
        stop := ← Json.required? (Json.natural? UInt64.size) stop }
  | _ => none

def location? (json : Json) : Option Location := do
  match ← json.fields? ["path", "range"] .ignored with
  | [path, range] =>
      some {
        path := ← Json.required? Json.text? path
        span := ← Json.required? span? range }
  | _ => none

def fieldNames : List String :=
  ["code", "title", "kind", "problem", "details", "hints", "location"]

def ofJson? (json : Json) : Option Diagnostic := do
  match ← json.fields? fieldNames .ignored with
  | [code, title, kind, problem, details, hints, location] =>
      some {
        code := ← Json.defaulted? (Json.optional? Json.text?) none code
        title := ← Json.required? Json.text? title
        severity := ← Json.required? (Json.constant? severities) kind
        problem := ← Json.defaulted? (Json.optional? Json.text?) none problem
        details := ← Json.defaulted? (Json.list? detail?) [] details
        hints := ← Json.defaulted? (Json.list? Json.text?) [] hints
        location := ← Json.defaulted? (Json.optional? location?) none location }
  | _ => none

end Diagnostic

end StyleSplit
