import StyleSplit.Text.Measure

/-! Cutting a string at byte offsets without reading what is before them. -/

namespace StyleSplit.Text

/-- Whether a byte offset is in the text or right after it, and not inside a
character. -/
def isBoundary (text : String) (offset : Nat) : Bool :=
  String.Pos.Raw.isValid text ⟨offset⟩

def between? (text : String) (start stop : Nat) : Option String :=
  if isBoundary text start && isBoundary text stop && start ≤ stop then
    some (String.Pos.Raw.extract text ⟨start⟩ ⟨stop⟩)
  else none

end StyleSplit.Text
