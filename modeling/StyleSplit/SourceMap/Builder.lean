import StyleSplit.Position
import StyleSplit.SourceMap.Vlq
import StyleSplit.SourceMap.Wire

/-! Building the source map of a generated file. -/

namespace StyleSplit

namespace MapBuilder

structure Entry where
  generated : Position
  source : Nat
  origin : Position
  deriving DecidableEq, Repr

def Entry.le (first second : Entry) : Bool :=
  if first.generated = second.generated then
    if first.source = second.source then first.origin.le second.origin
    else first.source ≤ second.source
  else first.generated.le second.generated

end MapBuilder

/-- The mappings added so far. Sources are numbered as mappings first name
them, and each has the text embedded for it, if any. -/
structure MapBuilder where
  file : Option String := none
  sources : Array (String × Option String) := #[]
  entries : Array MapBuilder.Entry := #[]

namespace MapBuilder

def sourceNames (builder : MapBuilder) : List String :=
  builder.sources.toList.map (·.1)

def indexOf? (builder : MapBuilder) (source : String) : Option Nat :=
  builder.sources.findIdx? (·.1 == source)

def hasSource (builder : MapBuilder) (source : String) : Bool :=
  (builder.indexOf? source).isSome

def mappingCount (builder : MapBuilder) : Nat :=
  builder.entries.size

def setFile (builder : MapBuilder) (file : Option String) : MapBuilder :=
  { builder with file }

def addMapping (builder : MapBuilder) (generated : Position) (source : String)
    (origin : Position) : MapBuilder :=
  match builder.indexOf? source with
  | some index =>
      { builder with entries := builder.entries.push ⟨generated, index, origin⟩ }
  | none =>
      { builder with
        sources := builder.sources.push (source, none)
        entries := builder.entries.push ⟨generated, builder.sources.size, origin⟩ }

/-- Embeds the text of a source, or takes it out again. A source that no
mapping names has none. -/
def setContent (builder : MapBuilder) (source : String) (content : Option String) :
    MapBuilder :=
  { builder with
    sources := builder.sources.map fun entry =>
      if entry.1 == source then (entry.1, content) else entry }

def sortedEntries (builder : MapBuilder) : List Entry :=
  (builder.entries.toList.mergeSort Entry.le).eraseReps

/-- What the fields of the next segment are counted from. Lines of the origin
count from zero. -/
structure Pen where
  line : Nat := 1
  column : Int := 0
  source : Int := 0
  sourceLine : Int := 0
  sourceColumn : Int := 0

def Pen.fields (pen : Pen) (entry : Entry) : List Int × Pen :=
  let column : Int := entry.generated.column.toNat
  let source : Int := entry.source
  let sourceLine : Int := entry.origin.line.toNat - 1
  let sourceColumn : Int := entry.origin.column.toNat
  ([column - pen.column, source - pen.source, sourceLine - pen.sourceLine,
      sourceColumn - pen.sourceColumn],
    ⟨pen.line, column, source, sourceLine, sourceColumn⟩)

def Pen.moveTo (pen : Pen) (entry : Entry) (isFirst : Bool) : List Char × Pen :=
  let line := entry.generated.line.toNat
  if pen.line < line then
    (List.replicate (line - pen.line) ';', { pen with line, column := 0 })
  else (if isFirst then [] else [','], pen)

def Pen.write (pen : Pen) (isFirst : Bool) : List Entry → List Char
  | [] => []
  | entry :: entries =>
      let (separator, pen) := pen.moveTo entry isFirst
      let (fields, pen) := pen.fields entry
      separator ++ fields.flatMap (fun field => Vlq.encode (.ofInt field)) ++
        pen.write false entries

def encodedMappings (builder : MapBuilder) : String :=
  .ofList (Pen.write {} true builder.sortedEntries)

/-- Texts are written only when some source has one. -/
def toWire (builder : MapBuilder) : WireMap where
  version := 3
  file := builder.file
  sources := builder.sourceNames.map some
  contents :=
    if builder.sources.any (·.2.isSome) then some (builder.sources.toList.map (·.2))
    else none
  mappings := builder.encodedMappings

def toText (builder : MapBuilder) : String :=
  builder.toWire.toText

end MapBuilder

end StyleSplit
