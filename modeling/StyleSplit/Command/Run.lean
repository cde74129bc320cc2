import StyleSplit.Command.Arguments
import StyleSplit.Command.Failure
import StyleSplit.Path

/-! Runs of the command, over any monad with files. -/

namespace StyleSplit

structure Transcript where
  status : Nat := 0
  /-- The text for standard output. -/
  output : String := ""
  /-- The text for standard error. -/
  errors : String := ""
  deriving DecidableEq, Repr

namespace Transcript

def version : Transcript :=
  { output := "cssplit 0.1.0\n" }

def usage : Transcript :=
  { status := 2,
    errors := "Usage: cssplit split|check [OPTIONS] <INPUTS>...\n" }

def ofFailure (failure : Failure) : Transcript :=
  { status := 1, errors := failure.toText }

def failure? (reports : List Report) : Option Failure :=
  let failed := reports.countP (·.outcome.hasErrors)
  if failed = 0 then none else some (.hadErrors failed reports.length)

/-- Diagnostics in text go with the errors, so that standard output holds a
report only in JSON. -/
def ofReports (format : ReportFormat) (reports : List Report) : Transcript :=
  let (status, failure) := match failure? reports with
    | some failure => (1, failure.toText)
    | none => (0, "")
  match format with
  | .text => { status, errors := String.join (reports.map Report.toText) ++ failure }
  | .json =>
      { status
        output := (Json.array (reports.map Report.toJson)).pretty 0 ++ "\n"
        errors := failure }

end Transcript

namespace Options

def checked (options : Options) : Except Failure Options :=
  match options.fault? with
  | some fault => .error (.invalidOption fault)
  | none => .ok options

def ofConfig (path text : String) : Except Failure Options :=
  match ofText? text with
  | some options => options.checked
  | none => .error (.malformedConfig path)

def withJob (options : Options) (job : Job) : Options :=
  { options with
    filename := job.filename.elim options.filename Template.mk
    sourceMaps := options.sourceMaps && !job.withoutMaps
    reopen := job.reopen.getD options.reopen }

end Options

namespace Job

def documentPath (job : Job) (input : String) : Except Failure String := do
  let path ← match job.folder with
    | none => pure input
    | some folder =>
        match Path.lastName? input with
        | some name => pure (Path.join folder name)
        | none => throw (.noFileName input)
  return path.map fun c => if c = '\\' then '/' else c

variable {m : Type → Type} [Monad m] [FileSystem m]

def attempt (action : m (Except FileFault α)) (failure : FileFault → Failure) :
    ExceptT Failure m α :=
  .mk (Except.mapError failure <$> action)

def settle (result : Except Failure α) : ExceptT Failure m α :=
  .mk (pure result)

def options (job : Job) : ExceptT Failure m Options := do
  let options ← match job.config with
    | none => pure {}
    | some path =>
        let text ← attempt (FileSystem.read path) (.unreadableConfig path)
        settle (Options.ofConfig path text)
  settle (options.withJob job).checked

def document (input path : String) : ExceptT Failure m Document := do
  let text ← attempt (FileSystem.read input) (.unreadableStylesheet input)
  let document : Document := { path, text }
  let mapPath := input ++ ".map"
  if ← (FileSystem.isFile mapPath : m Bool) then
    let map ← attempt (FileSystem.read mapPath) (.unreadableMap mapPath)
    return document.withMapText map
  else return document

def writeArtifact (artifact : String × String) : ExceptT Failure m Unit := do
  if let some folder := Path.parent? artifact.1 then
    attempt (FileSystem.createFolders folder) (.folderNotMade folder)
  attempt (FileSystem.write artifact.1 artifact.2) (.notWritten artifact.1)

/-- Splits an input, and writes what it gives before the next one is read. -/
def report (job : Job) (options : Options) (input : String) :
    ExceptT Failure m Report := do
  let document ← document input (← settle (job.documentPath input))
  let outcome := Outcome.ofDocument document options
  match job.action with
  | .check => return ⟨document, outcome, []⟩
  | .split =>
      outcome.artifacts.forM writeArtifact
      return ⟨document, outcome, outcome.artifacts.map Prod.fst⟩

def reports (job : Job) : ExceptT Failure m (List Report) := do
  let options ← job.options
  job.inputs.mapM (job.report options)

def run (job : Job) : m Transcript := do
  match ← job.reports.run with
  | .ok reports => return .ofReports (job.format.getD .text) reports
  | .error failure => return .ofFailure failure

end Job

def Transcript.ofArguments [Monad m] [FileSystem m] (arguments : List String) :
    m Transcript :=
  match Request.ofArguments? arguments with
  | none => pure .usage
  | some .version => pure .version
  | some (.run job) => job.run

end StyleSplit
