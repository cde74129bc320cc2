import StyleSplit.Text.Slice

/-! The rules of a stylesheet and the bytes they occupy. -/

namespace StyleSplit

/-- A range of byte offsets; `stop` is the first one outside it. -/
structure Span where
  start : Nat
  stop : Nat
  deriving DecidableEq, Repr

inductive Rule where
  | style (span : Span)
  | atRule (name : String) (span : Span)
  | media (children : List Rule) (span : Span)
  | comment (body : String) (span : Span)

namespace Rule

def span : Rule → Span
  | style span => span
  | atRule _ span => span
  | media _ span => span
  | comment _ span => span

def children : Rule → List Rule
  | media children _ => children
  | _ => []

def comment? : Rule → Option String
  | comment body _ => some body
  | _ => none

end Rule

def Span.text? (span : Span) (text : String) : Option String :=
  Text.between? text span.start span.stop

/-- The source text of a rule; empty when its span does not cut the text
between characters. -/
def Rule.text (rule : Rule) (source : String) : String :=
  (rule.span.text? source).getD ""

end StyleSplit
