import StyleSplit.Text.Measure

/-! Positions as source maps count them: lines from one, columns from zero in
UTF-16 units, and only a line feed ends a line. -/

namespace StyleSplit

structure Position where
  line : UInt32
  column : UInt32
  deriving DecidableEq, Repr

namespace Position

def start : Position := ⟨1, 0⟩

instance : Inhabited Position := ⟨start⟩

def le (first second : Position) : Bool :=
  first.line < second.line ||
    (first.line == second.line && first.column ≤ second.column)

def lastLine (text : List Char) : List Char :=
  (text.reverse.takeWhile (· ≠ '\n')).reverse

/-- Where the next character would stand after `before`. -/
def after (before : List Char) : Position :=
  ⟨.ofNat (before.count '\n' + 1), .ofNat (Text.unitLength (lastLine before))⟩

/-- The position of a byte offset; `none` past the end or inside a character. -/
def ofOffset? (text : String) (offset : Nat) : Option Position :=
  (Text.cut? text.toList offset).map fun (before, _) => after before

def dropLines? : Nat → List Char → Option (Nat × List Char)
  | 0, text => some (0, text)
  | _ + 1, [] => none
  | count + 1, c :: text =>
      (dropLines? (if c = '\n' then count else count + 1) text).map
        fun (bytes, rest) => (c.utf8Size + bytes, rest)

/-- The byte length of the first `column` units of a line; `none` past its end
or between the halves of a surrogate pair. -/
def columnOffset? : Nat → List Char → Option Nat
  | 0, _ => some 0
  | _ + 1, [] => none
  | column + 1, c :: text =>
      if c = '\n' then none
      else if Text.unitSize c ≤ column + 1 then
        (columnOffset? (column + 1 - Text.unitSize c) text).map (c.utf8Size + ·)
      else none

def toOffset? (text : String) (position : Position) : Option Nat :=
  if position.line = 0 then none
  else do
    let (bytes, rest) ← dropLines? (position.line.toNat - 1) text.toList
    let within ← columnOffset? position.column.toNat rest
    some (bytes + within)

def next (position : Position) (c : Char) : Position :=
  if c = '\n' then ⟨position.line + 1, 0⟩
  else ⟨position.line, position.column + .ofNat (Text.unitSize c)⟩

def advance (position : Position) (text : List Char) : Position :=
  text.foldl next position

@[simp] theorem advance_nil (position : Position) : position.advance [] = position := rfl

end Position

end StyleSplit
