import StyleSplit.Digest
import StyleSplit.Text.Replace

/-! File names made from a template: `[name]` stands for the name of a block
without its extension, `[contenthash]` for the digest of its contents. -/

namespace StyleSplit

structure Template where
  pattern : String := "[name].css"
  deriving DecidableEq, Repr

namespace Template

def nameMark : List Char := "[name]".toList

def hashMark : List Char := "[contenthash]".toList

def usesName (template : Template) : Bool :=
  Text.contains nameMark template.pattern.toList

def usesHash (template : Template) : Bool :=
  Text.contains hashMark template.pattern.toList

def stem (name : String) : List Char :=
  Text.dropEnd ".css".toList name.toList

/-- The file name for a block. Names are filled in before digests, and digests
only where the template itself asks for one. -/
def apply (template : Template) (name contents : String) (options : DigestOptions) :
    String :=
  let named := Text.replaceAll nameMark (stem name) template.pattern.toList
  .ofList (if template.usesHash then
    Text.replaceAll hashMark (Digest.ofContents contents options).toList named
  else named)

end Template

end StyleSplit
