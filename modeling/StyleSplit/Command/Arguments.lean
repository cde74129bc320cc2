import StyleSplit.Command.Report
import StyleSplit.Options
import StyleSplit.Text.Replace

/-! The arguments of the command. -/

namespace StyleSplit

inductive Action where
  /-- Writes the outputs. -/
  | split
  /-- Only reports what is wrong. -/
  | check
  deriving DecidableEq, Repr

structure Job where
  action : Action
  inputs : List String := []
  /-- The directory for the outputs, in place of that of each input. -/
  folder : Option String := none
  config : Option String := none
  filename : Option String := none
  withoutMaps : Bool := false
  reopen : Option ReopenPolicy := none
  format : Option ReportFormat := none
  deriving DecidableEq, Repr

inductive Request where
  | version
  | run (job : Job)
  deriving DecidableEq, Repr

inductive Setting where
  | folder
  | config
  | filename
  | reopen
  | format
  deriving DecidableEq, Repr

namespace Setting

def ofName? : Action → String → Option Setting
  | _, "config" => some config
  | _, "format" => some format
  | .split, "out-dir" => some folder
  | .split, "filename" => some filename
  | .split, "reopen" => some reopen
  | _, _ => none

def ofLetter? : Action → Char → Option Setting
  | _, 'c' => some config
  | .split, 'o' => some folder
  | _, _ => none

end Setting

inductive Argument where
  | input (path : String)
  /-- Only inputs follow. -/
  | separator
  | named (name : String) (value : Option String)
  | lettered (letter : Char) (value : Option String)
  deriving DecidableEq, Repr

/-- A value follows a name after an equals sign, and a letter with or without
one. -/
def Argument.ofText (text : String) : Argument :=
  match text.toList with
  | ['-', '-'] => separator
  | '-' :: '-' :: rest =>
      let name := rest.takeWhile (· ≠ '=')
      match rest.dropWhile (· ≠ '=') with
      | [] => named (.ofList name) none
      | _ :: value => named (.ofList name) (some (.ofList value))
  | ['-', letter] => lettered letter none
  | '-' :: letter :: '=' :: value | '-' :: letter :: value =>
      lettered letter (some (.ofList value))
  | _ => input text

namespace Job

def formats : List (String × ReportFormat) :=
  [("text", .text), ("json", .json)]

def once? (current : Option α) (value : Option α) : Option (Option α) :=
  match current, value with
  | none, some value => some (some value)
  | _, _ => none

def path? (value : String) : Option String :=
  if value.isEmpty then none else some value

def addInput? (job : Job) (value : String) : Option Job := do
  some { job with inputs := job.inputs ++ [← path? value] }

def addInputs? (job : Job) (values : List String) : Option Job :=
  values.foldlM addInput? job

def set? (job : Job) (setting : Setting) (value : String) : Option Job := do
  match setting with
  | .folder => some { job with folder := ← once? job.folder (path? value) }
  | .config => some { job with config := ← once? job.config (path? value) }
  | .filename => some { job with filename := ← once? job.filename (some value) }
  | .reopen => some { job with reopen := ← once? job.reopen (Options.policies.lookup value) }
  | .format => some { job with format := ← once? job.format (formats.lookup value) }

def leaveOutMaps? (job : Job) : Option Job :=
  if job.action = .split && !job.withoutMaps then some { job with withoutMaps := true }
  else none

/-- Reads arguments. A value that is not given with its option is the next
argument, which is then no option itself. -/
def read? (job : Job) : List String → Option Job
  | [] => some job
  | argument :: rest => do
      let setting ← match Argument.ofText argument with
        | .input path => return ← (← job.addInput? path).read? rest
        | .separator => return ← job.addInputs? rest
        | .named "no-source-maps" none => return ← (← job.leaveOutMaps?).read? rest
        | .named name value => pure (← Setting.ofName? job.action name, value)
        | .lettered letter value => pure (← Setting.ofLetter? job.action letter, value)
      match setting, rest with
      | (setting, some value), rest => (← job.set? setting value).read? rest
      | (_, none), [] => none
      | (setting, none), next :: rest =>
          match Argument.ofText next with
          | .input value => (← job.set? setting value).read? rest
          | _ => none

def ofArguments? (action : Action) (arguments : List String) : Option Job := do
  let job ← read? { action } arguments
  if job.inputs.isEmpty then none else some job

end Job

namespace Request

def ofArguments? : List String → Option Request
  | "split" :: arguments => (Job.ofArguments? .split arguments).map run
  | "check" :: arguments => (Job.ofArguments? .check arguments).map run
  | "--version" :: _ => some version
  | argument :: _ =>
      match Argument.ofText argument with
      | .lettered 'V' _ => some version
      | _ => none
  | [] => none

end Request

end StyleSplit
