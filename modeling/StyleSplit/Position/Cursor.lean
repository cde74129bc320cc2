import StyleSplit.Position

/-! The end of a text that only grows, kept without reading it again. -/

namespace StyleSplit

structure Cursor where
  offset : Nat := 0
  position : Position := .start
  deriving DecidableEq, Repr

namespace Cursor

def advance (cursor : Cursor) (text : String) : Cursor :=
  ⟨cursor.offset + text.utf8ByteSize, cursor.position.advance text.toList⟩

/-- The position of byte `relative` of `text`, were `text` written at the
cursor. -/
def positionWithin? (cursor : Cursor) (text : String) (relative : Nat) :
    Option Position :=
  (Text.cut? text.toList relative).map fun (before, _) =>
    cursor.position.advance before

end Cursor

end StyleSplit
