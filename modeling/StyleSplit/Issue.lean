import StyleSplit.Diagnostic
import StyleSplit.Diagnostic.Catalog
import StyleSplit.Stylesheet.Parser

/-! What can go wrong in a run. -/

namespace StyleSplit

inductive Issue where
  /-- The stylesheet cannot be read, and there is no output. -/
  | parse (problem : ParseProblem)
  /-- A closing delimiter does not name the innermost open block, if any. -/
  | mismatch (active : Option String) (closing : String) (span : Span)
  /-- A block is still open at the end; the span is that of its opening. -/
  | unclosed (name : String) (span : Span)
  /-- Two blocks have one path. The first keeps it; `none` is the document. -/
  | collision (path : String) (kept : Option String) (dropped : String)
  /-- The source map is of no use, and none are written. -/
  | invalidMap (reason : String)
  | internal (reason : String)
  deriving DecidableEq, Repr

namespace Issue

def code : Issue → String
  | internal _ => "CS-0-1"
  | parse _ => "CS-1-1"
  | mismatch _ _ _ => "CS-2-1"
  | unclosed _ _ => "CS-2-2"
  | collision _ _ _ => "CS-2-3"
  | invalidMap _ => "CS-3-1"

def isError : Issue → Bool
  | invalidMap _ => false
  | _ => true

def isFatal : Issue → Bool
  | parse _ => true
  | _ => false

def message : Issue → String
  | parse problem => "Failed to parse stylesheet: " ++ problem.message
  | mismatch active closing _ =>
      "Closing block mismatch: open=" ++ active.getD "(none)" ++ ", closing=" ++ closing
  | unclosed name _ => "Block was not closed: " ++ name
  | collision path kept _ =>
      "Output path collision: " ++ path ++ " is already written by " ++
        kept.getD "the document"
  | invalidMap reason => "Invalid source map: " ++ reason
  | internal reason => "Internal error: " ++ reason

def title (issue : Issue) : String :=
  (CatalogEntry.ofCode? issue.code).elim "Error" (·.title)

def toDiagnostic (issue : Issue) (path : String) : Diagnostic :=
  let base : Diagnostic := {
    code := some issue.code
    title := issue.title
    severity := if issue.isError then .error else .warning }
  match issue with
  | parse problem =>
      { base with
        problem := some ("`" ++ path ++ "` is not a valid stylesheet")
        location := some ⟨path, ⟨problem.offset, problem.offset⟩⟩
        details := [
          ⟨.error, problem.reason ++ " at line " ++ toString problem.position.line.toNat ++
            ", column " ++ toString problem.position.column.toNat⟩,
          ⟨.info, "No blocks were written for this document"⟩] }
  | mismatch active closing span =>
      { base with
        problem := some ("`end:" ++ closing ++ "` does not close the active block")
        location := some ⟨path, span⟩
        details :=
          match active with
          | some name => [⟨.info, "The active block is `" ++ name ++ "`"⟩]
          | none => [⟨.info, "No block is open here"⟩]
        hints :=
          match active with
          | some name => ["Did you mean `/*! end:" ++ name ++ " */`?"]
          | none => ["Is there a missing `/*! start:" ++ closing ++ " */`?"] }
  | unclosed name span =>
      { base with
        problem := some ("`" ++ name ++ "` was opened but never closed")
        location := some ⟨path, span⟩
        details := [
          ⟨.info, "The block was still written with everything after its start"⟩]
        hints := ["Did you forget `/*! end:" ++ name ++ " */`?"] }
  | collision path kept dropped =>
      let owner :=
        match kept with
        | some name => "block `" ++ name ++ "`"
        | none => "the document itself"
      { base with
        problem := some ("`" ++ dropped ++ "` and " ++ owner ++ " both resolve to `" ++
          path ++ "`")
        details := [⟨.info, "`" ++ dropped ++ "` was not written"⟩]
        hints := ["Rename the block or use a `filename` template with [name]?"] }
  | invalidMap reason =>
      { base with
        problem := some ("The source map for `" ++ path ++ "` could not be used")
        details := [⟨.error, reason⟩, ⟨.info, "Output was written without source maps"⟩] }
  | internal reason => { base with problem := some reason }

end Issue

end StyleSplit
