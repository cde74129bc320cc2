import StyleSplit.SourceMap

/-! Stylesheets to split. -/

namespace StyleSplit

/-- A stylesheet, where its own block is written, and the map it came with. A
map that cannot be read is kept as the reason why. -/
structure Document where
  path : String
  text : String
  map : Option (Except MapError SourceMap) := none

namespace Document

def withMapText (document : Document) (text : String) : Document :=
  { document with map := some (SourceMap.ofText text) }

def sourceMap? (document : Document) : Option SourceMap :=
  document.map.bind Except.toOption

end Document

end StyleSplit
