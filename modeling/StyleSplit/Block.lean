import StyleSplit.Position.Cursor
import StyleSplit.SourceMap

/-! Blocks: the parts of a stylesheet that become files. -/

namespace StyleSplit

structure Mapping where
  generated : Position
  origin : SourcePosition
  deriving DecidableEq, Repr

structure Block where
  /-- The name that delimiters use; for the document block, that of the file. -/
  identity : String
  /-- The name that the file name is made from. -/
  outputName : String
  isDocument : Bool
  text : String := ""
  cursor : Cursor := {}
  mappings : Array Mapping := #[]
  /-- The sources of the mappings, as they first appear. -/
  sources : Array String := #[]
  deriving DecidableEq, Repr

namespace Block

def named (identity outputName : String) : Block :=
  { identity, outputName, isDocument := false }

def document (name : String) : Block :=
  { identity := name, outputName := name, isDocument := true }

instance : Inhabited Block := ⟨document ""⟩

def endPosition (block : Block) : Position :=
  block.cursor.position

/-- Records that byte `offset` of `text`, which is about to be appended, comes
from `origin`. An offset that is none of `text` leaves no trace. -/
def record (block : Block) (text : String) (offset : Nat) (origin : SourcePosition) :
    Block :=
  match block.cursor.positionWithin? text offset with
  | none => block
  | some generated =>
      { block with
        mappings := block.mappings.push ⟨generated, origin⟩
        sources :=
          if block.sources.contains origin.source then block.sources
          else block.sources.push origin.source }

/-- Appends text. The origins are offsets in it, with where they come from. -/
def append (block : Block) (text : String) (origins : List (Nat × SourcePosition)) :
    Block :=
  let block := origins.foldl (fun block (offset, origin) =>
    block.record text offset origin) block
  { block with text := block.text ++ text, cursor := block.cursor.advance text }

end Block

end StyleSplit
