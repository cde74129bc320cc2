import StyleSplit.Block
import StyleSplit.Issue
import StyleSplit.Options
import Std.Data.HashSet.Basic

/-! The blocks of a run, and which of them are open. -/

namespace StyleSplit

structure OpenBlock where
  id : Nat
  openedAt : Span
  deriving DecidableEq, Repr

structure Registry where
  policy : ReopenPolicy
  /-- The document block, then the named ones as they were made. -/
  blocks : Array Block
  /-- For each identity the block made last, the newest entry first. -/
  latest : List (String × Nat) := []
  /-- The output names of the named blocks, the newest first. -/
  outputNames : List String := []
  /-- The open blocks, the innermost first. The document block is at the bottom
  and stays there. -/
  stack : List OpenBlock := [⟨0, ⟨0, 0⟩⟩]

namespace Registry

def new (documentName : String) (policy : ReopenPolicy) : Registry :=
  { policy, blocks := #[.document documentName] }

def activeId (registry : Registry) : Nat :=
  registry.stack.head?.elim 0 (·.id)

def block (registry : Registry) (id : Nat) : Block :=
  registry.blocks.getD id default

def active (registry : Registry) : Block :=
  registry.block registry.activeId

def depth (registry : Registry) : Nat :=
  registry.stack.length

def create (registry : Registry) (name outputName : String) : Registry × Nat :=
  let id := registry.blocks.size
  ({ registry with
      blocks := registry.blocks.push (.named name outputName)
      latest := (name, id) :: registry.latest
      outputNames := outputName :: registry.outputNames },
    id)

def getOrCreate (registry : Registry) (name : String) : Registry × Nat :=
  match registry.latest.lookup name with
  | some id => (registry, id)
  | none => registry.create name name

def numbered (name : String) (number : Nat) : String :=
  .ofList (Template.stem name) ++ "-" ++ toString number ++ ".css"

/-- The first of the numbered names, from two on, that no named block has. One
of the first so many is free, as there are fewer names in use. -/
def nextName (registry : Registry) (name : String) : String :=
  let taken := Std.HashSet.ofList registry.outputNames
  let candidates :=
    (List.range (registry.outputNames.length + 1)).map fun index => numbered name (index + 2)
  (candidates.find? fun candidate => !taken.contains candidate).getD name

def openBlock (registry : Registry) (name : String) (openedAt : Span) : Registry × Nat :=
  let (registry, id) :=
    if registry.policy = .separate ∧ (registry.latest.lookup name).isSome then
      registry.create name (registry.nextName name)
    else registry.getOrCreate name
  ({ registry with stack := ⟨id, openedAt⟩ :: registry.stack }, id)

/-- Closes the active block, unless it is the document block or has another
name; then nothing changes. -/
def closeBlock (registry : Registry) (name : String) (closedAt : Span) :
    Except Issue (Registry × Nat) :=
  let active := registry.active
  if active.isDocument then .error (.mismatch none name closedAt)
  else if active.identity ≠ name then
    .error (.mismatch (some active.identity) name closedAt)
  else .ok ({ registry with stack := registry.stack.tail }, registry.activeId)

def appendActive (registry : Registry) (text : String)
    (origins : List (Nat × SourcePosition)) : Registry :=
  { registry with
    blocks := registry.blocks.modify registry.activeId fun block => block.append text origins }

/-- One issue for each block that is open above the document block, the
innermost first. -/
def unclosed (registry : Registry) : List Issue :=
  registry.stack.dropLast.map fun entry =>
    .unclosed (registry.block entry.id).identity entry.openedAt

end Registry

end StyleSplit
