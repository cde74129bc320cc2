import StyleSplit.Delimiter
import StyleSplit.Document
import StyleSplit.Path
import StyleSplit.Registry

/-! Routing the rules of a stylesheet into blocks. -/

namespace StyleSplit

structure Routing where
  blocks : List Block
  issues : List Issue
  map : Option SourceMap

namespace Routing

/-- The map of a document, if it is wanted and says anything; otherwise the
issue there is with it. -/
def usableMap (document : Document) (options : Options) : Option SourceMap × List Issue :=
  if options.sourceMaps then
    match document.map with
    | none => (none, [])
    | some (.error error) => (none, [.invalidMap error.message])
    | some (.ok map) =>
        if map.isEmpty then (none, [.invalidMap "source map has no mappings"])
        else (some map, [])
  else (none, [])

/-- Where a rule and the rules right inside it come from, as offsets from the
start of the rule. What the map does not know is left out. -/
def origins (map : SourceMap) (index : LineIndex) (rule : Rule) :
    List (Nat × SourcePosition) :=
  (rule :: rule.children).filterMap fun part => do
    let generated ← index.position? part.span.start
    let origin ← map.sourcePosition? generated
    if rule.span.start ≤ part.span.start then
      some (part.span.start - rule.span.start, origin)
    else none

structure State where
  registry : Registry
  mismatches : List Issue := []

/-- Delimiters open and close blocks, old pragmas are dropped, and all other
rules go to the active block. -/
def State.step (state : State) (text : String) (map : Option SourceMap)
    (index : LineIndex) (rule : Rule) : State :=
  match rule.comment?.map CommentClass.ofBody with
  | some (.opening name) =>
      { state with registry := (state.registry.openBlock name rule.span).1 }
  | some (.closing name) =>
      match state.registry.closeBlock name rule.span with
      | .ok (registry, _) => { state with registry }
      | .error issue => { state with mismatches := state.mismatches ++ [issue] }
  | some .stalePragma => state
  | some .content | none =>
      let origins := map.elim [] fun map => origins map index rule
      { state with registry := state.registry.appendActive (rule.text text) origins }

/-- Routes the rules of a document that have been read already. A stylesheet
with a problem is not routed at all; the first problem is the only issue. -/
def ofStylesheet (document : Document) (stylesheet : Stylesheet) (options : Options) :
    Routing :=
  match stylesheet.problems with
  | problem :: _ => ⟨[], [.parse problem], none⟩
  | [] =>
      let (map, mapIssues) := usableMap document options
      let index := LineIndex.ofText document.text
      let start : State := { registry := .new (Path.fileName document.path) options.reopen }
      let final := stylesheet.rules.foldl
        (fun (state : State) rule => state.step document.text map index rule) start
      ⟨final.registry.blocks.toList,
        mapIssues ++ final.mismatches ++ final.registry.unclosed, map⟩

def ofDocument (document : Document) (options : Options) : Routing :=
  ofStylesheet document (.ofText document.text) options

end Routing

end StyleSplit
