import StyleSplit.Proofs.Text.Bytes
import StyleSplit.Stylesheet.Parser

/-! Reading a stylesheet in place: by offsets into its bytes, with every read, slice,
subtraction and turn checked. -/

namespace StyleSplit.Stylesheet

open Text (byteLength codes isBlank isNameChar isWhite)

inductive Fault where
  /-- A byte past the end, or bytes up to an offset past the end. -/
  | index
  /-- A slice that is reversed, runs past the end or cuts a character. -/
  | slice
  | underflow
  /-- A turn that does not move on. -/
  | stuck
  deriving DecidableEq, Repr

namespace InPlace

variable (text : List Char) (limit : Nat)

def byte (offset : Nat) : Except Fault Char :=
  (codes text)[offset]?.elim (.error .index) .ok

def bytes (start stop : Nat) : Except Fault (List Char) :=
  if start ≤ stop ∧ stop ≤ (codes text).length then
    .ok (((codes text).drop start).take (stop - start))
  else .error .index

def slice (start stop : Nat) : Except Fault (List Char) :=
  (Text.slice? text start stop).elim (.error .slice) .ok

/-- Where a quoted string ends whose mark stands before `offset`. An escape may step
over the limit. -/
def skipQuoted (mark : Char) (offset : Nat) : Except Fault Nat :=
  if offset < limit then do
    let c ← byte text offset
    if c = '\\' then skipQuoted mark (offset + 2)
    else if c = '\n' then .ok offset
    else if c = mark then .ok (offset + 1)
    else skipQuoted mark (offset + 1)
  else .ok limit
termination_by limit - offset

inductive Sight where
  | skip (next : Nat)
  | openComment
  | byte (c : Char)

/-- The byte after a slash is looked at even when it stands at the limit. -/
def look (offset : Nat) : Except Fault Sight := do
  let c ← byte text offset
  if c = '"' ∨ c = '\'' then
    let next ← skipQuoted text limit c (offset + 1)
    return .skip next
  else if c = '/' ∧ (codes text)[offset + 1]? = some '*' then
    let within ← slice text (offset + 2) limit
    match Lexeme.takeComment? within with
    | some (body, _) => return .skip (offset + 2 + byteLength body + 2)
    | none => return .openComment
  else if c = '\\' then return .skip (offset + 2)
  else return .byte c

inductive Move where
  | on (depth : Nat)
  | here
  | underflow

def scan (move : Nat → Char → Move) (depth offset : Nat) :
    Except Fault (Option (Nat × Char)) :=
  if offset < limit then do
    match ← look text limit offset with
    | .openComment => return none
    | .skip next => if offset < next then scan move depth next else .error .stuck
    | .byte c =>
        match move depth c with
        | .on depth => scan move depth (offset + 1)
        | .here => return some (offset, c)
        | .underflow => .error .underflow
  else .ok none
termination_by limit - offset

def untilStop (depth : Nat) (c : Char) : Move :=
  if depth = 0 ∧ (Stop.ofChar? c).isSome then .here else .on (parensAfter depth c)

def untilClosed (depth : Nat) (c : Char) : Move :=
  if c = '\x7b' then .on (depth + 1)
  else if c = '\x7d' then
    if depth = 0 then .underflow else if depth = 1 then .here else .on (depth - 1)
  else .on depth

def trimmedStop (start stop : Nat) : Except Fault Nat := do
  let within ← slice text start stop
  return start + byteLength (Text.trimEnd within)

inductive Found where
  | nothing
  | rule (rule : Rule)
  /-- A media rule, whose block is still to be read. -/
  | media (bodyStart bodyStop : Nat) (span : Span)

structure Turn where
  found : Found := .nothing
  flaws : List (Nat × Flaw) := []
  next : Nat

def nameFlaws (start : Nat) (nameChars : List Char) : List (Nat × Flaw) :=
  if nameChars = [] then [(start, .namelessAtRule)] else []

def comment (start : Nat) : Except Fault Turn := do
  let within ← slice text (start + 2) limit
  match Lexeme.takeComment? within with
  | some (body, _) =>
      let stop := start + 2 + byteLength body
      let body ← slice text (start + 2) stop
      return ⟨.rule (.comment (.ofList body) ⟨start, stop + 2⟩), [], stop + 2⟩
  | none =>
      let body ← slice text (start + 2) limit
      return ⟨.rule (.comment (.ofList body) ⟨start, limit⟩), [(start, .unclosedComment)], limit⟩

def atRuleEnding (start : Nat) (nameChars : List Char) :
    Option (Nat × Char) → Except Fault Turn
  | none => do
      let stop ← trimmedStop text start limit
      return ⟨.rule (.atRule (.ofList nameChars) ⟨start, stop⟩), nameFlaws start nameChars, limit⟩
  | some (ending, c) =>
      let name := String.ofList nameChars
      let flaws := nameFlaws start nameChars
      if c = ';' then return ⟨.rule (.atRule name ⟨start, ending + 1⟩), flaws, ending + 1⟩
      else if c = '\x7b' then do
        match ← scan text limit untilClosed 0 ending with
        | none =>
            return ⟨.rule (.atRule name ⟨start, limit⟩),
              flaws ++ [(start, .unclosedAtRule name)], limit⟩
        | some (close, _) =>
            if nameChars.map Char.toLower = "media".toList then
              return ⟨.media (ending + 1) close ⟨start, close + 1⟩, flaws, close + 1⟩
            else return ⟨.rule (.atRule name ⟨start, close + 1⟩), flaws, close + 1⟩
      else do
        -- The brace is left for the next turn.
        let stop ← trimmedStop text start ending
        return ⟨.rule (.atRule name ⟨start, stop⟩), flaws, ending⟩

def atRule (start : Nat) : Except Fault Turn := do
  let window ← bytes text (start + 1) limit
  let nameStop := start + 1 + (window.takeWhile isNameChar).length
  let nameChars ← slice text (start + 1) nameStop
  let ending ← scan text limit untilStop 0 nameStop
  atRuleEnding text limit start nameChars ending

def styleRule (start : Nat) : Except Fault Turn := do
  match ← scan text limit untilStop 0 start with
  | none => return ⟨.nothing, [(start, .blockMissing)], limit⟩
  | some (ending, c) =>
      if c = '\x7b' then
        let selector ← slice text start ending
        let flaws := if selector.all isWhite then [(start, .selectorMissing)] else []
        match ← scan text limit untilClosed 0 ending with
        | none => return ⟨.rule (.style ⟨start, limit⟩), flaws ++ [(start, .unclosedRule)], limit⟩
        | some (close, _) => return ⟨.rule (.style ⟨start, close + 1⟩), flaws, close + 1⟩
      else if c = ';' then return ⟨.nothing, [(start, .blockMissing)], ending + 1⟩
      else return ⟨.nothing, [(start, .blockMissing)], ending⟩

def turn (start : Nat) : Except Fault Turn := do
  let c ← byte text start
  if c = '/' ∧ (codes text)[start + 1]? = some '*' ∧ start + 1 < limit then
    comment text limit start
  else if c = '\x7d' then return ⟨.nothing, [(start, .strayBrace)], start + 1⟩
  else if c = '@' then atRule text limit start
  else styleRule text limit start

def skipBlanks (offset : Nat) : Except Fault Nat :=
  if offset < limit then do
    let c ← byte text offset
    if isBlank c then skipBlanks (offset + 1) else .ok offset
  else .ok offset
termination_by limit - offset

end InPlace

/-- The rules between two offsets. A block is read when its end is known, by offsets
that stay inside it. -/
def InPlace.rules (text : List Char) (limit offset : Nat) : Except Fault Reading := do
  let start ← skipBlanks text limit offset
  if start < limit then
    let turn ← turn text limit start
    if offset ≤ start ∧ start < turn.next then
      let item : Reading ←
        match turn.found with
        | .nothing => pure {}
        | .rule rule => pure ⟨[rule], []⟩
        | .media bodyStart bodyStop span =>
            if offset < bodyStart ∧ bodyStop ≤ limit then do
              let block ← rules text bodyStop bodyStart
              pure ⟨[.media block.rules span], block.flaws⟩
            else .error .stuck
      let following ← rules text limit turn.next
      return ⟨item.rules ++ following.rules, turn.flaws ++ item.flaws ++ following.flaws⟩
    else .error .stuck
  else return {}
termination_by limit - offset

def InPlace.ofText (text : List Char) : Except Fault Reading :=
  rules text (byteLength text) (if text.head? = some '\ufeff' then '\ufeff'.utf8Size else 0)

end StyleSplit.Stylesheet
