import StyleSplit.Output
import StyleSplit.Routing

/-! Splitting a document into the files it becomes. -/

namespace StyleSplit

structure Outcome where
  path : String
  outputs : List Output
  issues : List Issue

namespace Outcome

def hasErrors (outcome : Outcome) : Bool :=
  outcome.issues.any Issue.isError

def artifacts (outcome : Outcome) : List (String × String) :=
  outcome.outputs.flatMap Output.artifacts

def output? (outcome : Outcome) (name : String) : Option Output :=
  outcome.outputs.find? (·.name == name)

def diagnostics (outcome : Outcome) : List Diagnostic :=
  outcome.issues.map (·.toDiagnostic outcome.path)

/-- Keeps the first output of each path. `claimed` holds the paths taken so far
and the blocks that took them. -/
def resolve (claimed : List (String × Block)) :
    List (Block × Output) → List Output × List Issue
  | [] => ([], [])
  | (block, output) :: rest =>
      match claimed.lookup output.path with
      | some owner =>
          let (outputs, issues) := resolve claimed rest
          let kept := if owner.isDocument then none else some owner.identity
          (outputs, .collision output.path kept block.identity :: issues)
      | none =>
          let (outputs, issues) := resolve ((output.path, block) :: claimed) rest
          (output :: outputs, issues)

def ofStylesheet (document : Document) (stylesheet : Stylesheet) (options : Options) :
    Outcome :=
  let routing := Routing.ofStylesheet document stylesheet options
  let rendered := routing.blocks.map fun block =>
    (block, block.render document.path options routing.map)
  let (outputs, collisions) := resolve [] rendered
  ⟨document.path, outputs, routing.issues ++ collisions⟩

def ofDocument (document : Document) (options : Options) : Outcome :=
  ofStylesheet document (.ofText document.text) options

def ofDocuments (documents : List Document) (options : Options) : List Outcome :=
  documents.map fun document => ofDocument document options

end Outcome

end StyleSplit
