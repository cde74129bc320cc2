import StyleSplit.Position
import StyleSplit.Search
import StyleSplit.Text.Slice

/-! An index of one text that answers position queries by binary search. -/

namespace StyleSplit

/-- Where each line starts and, just past every character outside ASCII, the
column reached there. Between checkpoints a byte is a column. -/
structure LineIndex where
  text : String
  lineStarts : Array Nat
  checkpoints : Array (Nat × Nat)

namespace LineIndex

structure Scan where
  offset : Nat := 0
  column : Nat := 0
  lineStarts : Array Nat := #[0]
  checkpoints : Array (Nat × Nat) := #[]

def Scan.next (scan : Scan) (c : Char) : Scan :=
  let offset := scan.offset + c.utf8Size
  if c = '\n' then
    { scan with offset, column := 0, lineStarts := scan.lineStarts.push offset }
  else
    let column := scan.column + Text.unitSize c
    if c.utf8Size = 1 then { scan with offset, column }
    else { scan with offset, column, checkpoints := scan.checkpoints.push (offset, column) }

def ofText (text : String) : LineIndex :=
  let scan := text.toList.foldl Scan.next {}
  ⟨text, scan.lineStarts, scan.checkpoints⟩

def lineCount (index : LineIndex) : Nat :=
  index.lineStarts.size

def column (index : LineIndex) (lineStart offset : Nat) : Nat :=
  match index.checkpoints[partitionPoint index.checkpoints (·.1 ≤ offset) - 1]? with
  | some (byte, column) =>
      if lineStart < byte ∧ byte ≤ offset then column + (offset - byte)
      else offset - lineStart
  | none => offset - lineStart

def position? (index : LineIndex) (offset : Nat) : Option Position :=
  if Text.isBoundary index.text offset then
    let row := partitionPoint index.lineStarts (· ≤ offset)
    let lineStart := index.lineStarts.getD (row - 1) 0
    some ⟨.ofNat row, .ofNat (index.column lineStart offset)⟩
  else none

end LineIndex

end StyleSplit
