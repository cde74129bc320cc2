import StyleSplit.Block
import StyleSplit.Options
import StyleSplit.Path
import StyleSplit.SourceMap.Builder

/-! The files that blocks become. -/

namespace StyleSplit

structure Output where
  name : String
  path : String
  css : String
  /-- The text of the map, which is written beside the stylesheet. -/
  map : Option String
  deriving DecidableEq, Repr

namespace Output

def mapPath (output : Output) : String :=
  output.path ++ ".map"

def artifacts (output : Output) : List (String × String) :=
  (output.path, output.css) ::
    (output.map.map fun map => (output.mapPath, map)).toList

end Output

namespace Block

/-- Where a block is written. The document block keeps the path of the document,
and the others go next to it. -/
def path (block : Block) (documentPath : String) (options : Options) : String :=
  if block.isDocument then documentPath
  else
    Path.sibling documentPath
      (options.filename.apply block.outputName block.text options.hash)

def mapBuilder (block : Block) (path : String) (map : SourceMap) : MapBuilder :=
  let mapped := block.mappings.foldl (fun builder mapping =>
      builder.addMapping mapping.generated mapping.origin.source mapping.origin.position)
    { file := some path }
  block.sources.foldl (fun builder source =>
    builder.setContent source (map.contentFor? source)) mapped

def pragma (path : String) : String :=
  "/*# sourceMappingURL=" ++ Path.fileName path ++ ".map*/\n"

def render (block : Block) (documentPath : String) (options : Options)
    (map : Option SourceMap) : Output :=
  let path := block.path documentPath options
  match map with
  | none => ⟨block.outputName, path, block.text ++ "\n", none⟩
  | some map =>
      ⟨block.outputName, path, block.text ++ "\n" ++ pragma path,
        some (block.mapBuilder path map).toText⟩

end Block

end StyleSplit
