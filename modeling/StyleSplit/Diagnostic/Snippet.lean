import StyleSplit.Diagnostic
import StyleSplit.Text.Class
import StyleSplit.Text.Measure
import StyleSplit.Text.Width

/-! Drawings of the part of a source that a diagnostic is about. -/

namespace StyleSplit

namespace Snippet

/-- The characters of a range of bytes, counted from the start of the text; `none` when
the range does not cut the text between characters. -/
def charRange? (text : List Char) (span : Span) : Option (Nat × Nat) := do
  let (before, _) ← Text.cut? text span.start
  let within ← Text.slice? text span.start span.stop
  some (before.length, before.length + within.length)

/-- The characters to draw: an empty range stands for the character after it. -/
def charSpan? (text : List Char) (span : Span) : Option (Nat × Nat) := do
  let (start, stop) ← charRange? text span
  if start = stop then
    if start < text.length then some (start, start + 1) else none
  else some (start, stop)

def isLineEnd (c : Char) : Bool :=
  c == '\r' || c == '\n' || c == '\x0b' || c == '\x0c' || c == '\u0085' ||
    c == '\u2028' || c == '\u2029'

/-- The lines of a text, each with its end; a carriage return and a line feed
are one end. -/
def lines : List Char → List (List Char)
  | [] => []
  | ['\r', '\n'] => [['\r', '\n']]
  | [c] => [[c]]
  | c :: d :: text =>
      if isLineEnd c && !(c == '\r' && d == '\n') then [c] :: lines (d :: text)
      else
        match lines (d :: text) with
        | [] => [[c]]
        | line :: rest => (c :: line) :: rest

/-- The line that holds the character of the given number, how many characters
come before that line, and its number. -/
def lineOf (number before : Nat) (index : Nat) : List (List Char) → Nat × Nat × List Char
  | [] => (number, before, [])
  | line :: lines =>
      if index < before + line.length ∨ lines.isEmpty then (number, before, line)
      else lineOf (number + 1) (before + line.length) index lines

def width (column : Nat) (c : Char) : Nat :=
  if c = '\t' then (column / 4 + 1) * 4 - column
  else if Text.isWhite c then 1
  else Text.columns c

def draw (column : Nat) (c : Char) : List Char :=
  if Text.isWhite c then List.replicate (width column c) ' ' else [c]

def shown (line : List Char) : List Char :=
  (Text.trimEnd line).zipIdx.flatMap fun (c, column) => draw column c

def widths (line : List Char) (count : Nat) : List Nat :=
  let text := (Text.trimEnd line).take count
  text.zipIdx.map (fun (c, column) => width column c) ++
    List.replicate (count - text.length) 1

def bar (width : Nat) : List Char :=
  List.replicate width '─'

def space (width : Nat) : List Char :=
  List.replicate width ' '

def marked (mark : Char) (width : Nat) : List Char :=
  (mark :: bar (width - 1)).take width

/-- The two rows below a line: a bar under the columns from `start` to `stop`
with a stem at `middle`, and the stem's way to the message. -/
def underline (line : List Char) (start stop middle : Nat) : List Char × List Char :=
  let columns := (widths line (stop + 2)).zipIdx
  (columns.flatMap fun (width, column) =>
      if column = middle then marked '┬' width
      else if start ≤ column ∧ column < stop then bar width
      else space width,
    columns.flatMap fun (width, column) =>
      if column = middle then marked '╰' width
      else if middle < column then bar width
      else space width)

def oneLine (margin gutter line message : List Char) (start stop middle : Nat) :
    List (List Char) :=
  let (above, below) := underline line start stop middle
  [gutter ++ shown line, margin ++ "│ ".toList ++ above,
    margin ++ "│ ".toList ++ below ++ ' ' :: message]

def manyLines (margin firstGutter lastGutter first last message : List Char)
    (adjacent : Bool) : List (List Char) :=
  let width := (widths last (last.length + 2)).foldr (· + ·) 0
  [firstGutter ++ "╭─▶ ".toList ++ shown first] ++
    (if adjacent then [] else [margin ++ "┆ ┆   ".toList]) ++
    [lastGutter ++ "├─▶ ".toList ++ shown last,
      margin ++ "│ │   ".toList ++ space width,
      margin ++ "│ ╰───".toList ++ bar width ++ ' ' :: message]

end Snippet

namespace Diagnostic

def snippet? (diagnostic : Diagnostic) (location : Location) (source : String) :
    Option String := do
  let text := source.toList
  let (start, stop) ← Snippet.charSpan? text location.span
  let lines := Snippet.lines text
  let (firstNumber, firstStart, first) := Snippet.lineOf 0 0 start lines
  let (lastNumber, _, last) := Snippet.lineOf 0 0 (stop - 1) lines
  let digits := (toString (lastNumber + 1)).length
  let margin := Snippet.space (digits + 2)
  let gutter (number : Nat) : List Char :=
    let label := (toString (number + 1)).toList
    ' ' :: Snippet.space (digits - label.length) ++ label ++ " │ ".toList
  let code := diagnostic.code.elim "" fun code => "[" ++ code ++ "] "
  let message := (diagnostic.problem.getD diagnostic.title).toList
  let header := [
    (diagnostic.severity.label ++ ": " ++ code ++ diagnostic.title).toList,
    margin ++ ("╭─[" ++ location.path ++ ":" ++ toString (firstNumber + 1) ++ ":" ++
      toString (start - firstStart + 1) ++ "]").toList,
    margin ++ ['│']]
  let body :=
    if firstNumber = lastNumber then
      Snippet.oneLine margin (gutter firstNumber) first message (start - firstStart)
        (stop - firstStart) ((start + stop) / 2 - firstStart)
    else
      Snippet.manyLines margin (gutter firstNumber) (gutter lastNumber) first last message
        (lastNumber == firstNumber + 1)
  let rows := header ++ body ++ [Snippet.bar (digits + 2) ++ ['╯']]
  some (.ofList (Text.trimEnd (['\n'].intercalate rows)))

/-- The message in words. With the source at hand, a drawing takes the place of
title and problem. -/
def toText (diagnostic : Diagnostic) (source : Option String) : String :=
  let drawn := do diagnostic.snippet? (← diagnostic.location) (← source)
  let heading :=
    match drawn with
    | some drawn => [drawn]
    | none => diagnostic.heading
  "\n".intercalate (heading ++ diagnostic.remarks)

end Diagnostic

end StyleSplit
