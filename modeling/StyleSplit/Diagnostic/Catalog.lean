/-! The codes of diagnostics, and what each of them stands for. -/

namespace StyleSplit

structure CatalogEntry where
  subsystem : String
  title : String
  template : String
  since : String
  deriving DecidableEq, Repr

def catalog : List (String × CatalogEntry) :=
  [("CS-0-1",
      ⟨"internal", "Internal Error",
        "An internal error occurred. This is a bug in cssplit.", "0.1.0"⟩),
    ("CS-1-1",
      ⟨"stylesheet", "Stylesheet Parse Error",
        "The stylesheet could not be parsed, so it was not split.", "0.1.0"⟩),
    ("CS-2-1",
      ⟨"blocks", "Block Mismatch",
        "An end marker does not close the block that is currently open.", "0.1.0"⟩),
    ("CS-2-2",
      ⟨"blocks", "Unclosed Block",
        "A block was opened with a start marker but never closed.", "0.1.0"⟩),
    ("CS-2-3",
      ⟨"blocks", "Output Collision",
        "Two blocks resolve to the same output file; only the first was written.", "0.1.0"⟩),
    ("CS-3-1",
      ⟨"sourcemap", "Invalid Source Map",
        "The input source map cannot be used, so no source maps were generated.", "0.1.0"⟩)]

def CatalogEntry.ofCode? (code : String) : Option CatalogEntry :=
  catalog.lookup code

end StyleSplit
