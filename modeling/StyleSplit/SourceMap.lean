import StyleSplit.Json.Parser
import StyleSplit.Position
import StyleSplit.Search
import StyleSplit.SourceMap.Mappings
import StyleSplit.SourceMap.Wire

/-! Decoded source maps and the questions they answer. -/

namespace StyleSplit

structure SourcePosition where
  source : String
  position : Position
  deriving DecidableEq, Repr

/-- The segments of each generated line, sorted by column. -/
structure SourceMap where
  file : Option String
  sources : Array String
  contents : List (Option String)
  lines : Array (Array (Segment sources.size))

namespace SourceMap

/-- The root goes before a source, unless the source is absolute. -/
def joinRoot (root source : String) : String :=
  if root.isEmpty || source.startsWith "/" || source.contains "://" then source
  else if root.endsWith "/" then root ++ source
  else root ++ "/" ++ source

def ofWire (wire : WireMap) : Except MapError SourceMap :=
  if wire.version = 3 then do
    let root := wire.sourceRoot.getD ""
    let sources := (wire.sources.map fun source => joinRoot root (source.getD "")).toArray
    let lines ← Segment.decode sources.size wire.mappings
    return {
      file := wire.file
      sources := sources
      contents := wire.contents.getD []
      lines := (lines.map List.toArray).toArray }
  else .error (.unsupportedVersion wire.version)

def ofText (text : String) : Except MapError SourceMap :=
  match Json.parse? text >>= WireMap.ofJson? with
  | some wire => ofWire wire
  | none => .error .malformed

def contentFor? (map : SourceMap) (source : String) : Option String := do
  let index ← map.sources.toList.findIdx? (· == source)
  (map.contents[index]?).join

def segmentsOf (map : SourceMap) (line : UInt32) : Array (Segment map.sources.size) :=
  if line = 0 then #[] else map.lines.getD (line.toNat - 1) #[]

def sourcePosition (map : SourceMap) (origin : Origin map.sources.size) :
    SourcePosition :=
  ⟨map.sources[origin.source], ⟨origin.line, origin.column⟩⟩

/-- Where a generated position comes from: the origin of the last segment of
its line that starts at or before it. -/
def sourcePosition? (map : SourceMap) (position : Position) :
    Option SourcePosition :=
  let segments := map.segmentsOf position.line
  match partitionPoint segments (·.column ≤ position.column) with
  | 0 => none
  | count + 1 => do
      let segment ← segments[count]?
      segment.origin.map map.sourcePosition

def origins (map : SourceMap) : List (Position × Origin map.sources.size) :=
  map.lines.toList.zipIdx.flatMap fun (segments, row) =>
    segments.toList.filterMap fun segment =>
      segment.origin.map fun origin => (⟨.ofNat (row + 1), segment.column⟩, origin)

def mappings (map : SourceMap) : List (Position × SourcePosition) :=
  map.origins.map fun (generated, origin) => (generated, map.sourcePosition origin)

def mappingCount (map : SourceMap) : Nat :=
  map.origins.length

def isEmpty (map : SourceMap) : Bool :=
  map.mappingCount == 0

def best (beats : α → α → Bool) : List α → Option α
  | candidates =>
      candidates.foldl (fun found candidate =>
        match found with
        | none => some candidate
        | some found => some (if beats candidate found then candidate else found)) none

/-- Where a position in a source is generated: on its line the greatest column
at or before it, or else the least column there is. -/
def generatedPosition? (map : SourceMap) (source : String) (position : Position) :
    Option Position := do
  let index ← map.sources.toList.findIdx? (· == source)
  let onLine := map.origins.filter fun (_, origin) =>
    origin.source.val == index && origin.line == position.line
  let before := onLine.filter fun (_, origin) => origin.column ≤ position.column
  let (generated, _) ←
    best (fun first second => second.2.column < first.2.column) before <|>
      best (fun first second => first.2.column < second.2.column) onLine
  some generated

end SourceMap

end StyleSplit
