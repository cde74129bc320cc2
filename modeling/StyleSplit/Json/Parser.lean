import StyleSplit.Json.Basic
import StyleSplit.Json.Token

/-! Reading JSON text. The containers still open are kept in a list, so depth
costs nothing. -/

namespace StyleSplit.Json

/-- A container that waits for a value, with the entries before it, last
first. -/
inductive Frame where
  | array (before : List Json)
  | object (before : List (Option String × Json)) (name : Option String)

inductive Expected where
  | value
  | valueOrClose
  | nameOrClose
  | name (before : List (Option String × Json))
  | colon (before : List (Option String × Json)) (name : Option String)
  /-- A value has been read, and the innermost container goes on or ends. -/
  | next (value : Json)

def scalar? : Token → Option Json
  | .null => some null
  | .bool value => some (bool value)
  | .number literal => some (number literal)
  | .string value => some (string value)
  | _ => none

def startValue? (token : Token) (frames : List Frame) : Option (Expected × List Frame) :=
  match token with
  | .openArray => some (.valueOrClose, .array [] :: frames)
  | .openObject => some (.nameOrClose, frames)
  | token => (scalar? token).map fun value => (.next value, frames)

def step? : Expected → List Frame → Token → Option (Expected × List Frame)
  | .valueOrClose, .array [] :: frames, .closeArray => some (.next (array []), frames)
  | .value, frames, token | .valueOrClose, frames, token => startValue? token frames
  | .nameOrClose, frames, .closeObject => some (.next (object []), frames)
  | .nameOrClose, frames, .string name => some (.colon [] name, frames)
  | .name before, frames, .string name => some (.colon before name, frames)
  | .colon before name, frames, .colon => some (.value, .object before name :: frames)
  | .next value, .array before :: frames, .comma =>
      some (.value, .array (value :: before) :: frames)
  | .next value, .array before :: frames, .closeArray =>
      some (.next (array (value :: before).reverse), frames)
  | .next value, .object before name :: frames, .comma =>
      some (.name ((name, value) :: before), frames)
  | .next value, .object before name :: frames, .closeObject =>
      some (.next (object ((name, value) :: before).reverse), frames)
  | _, _, _ => none

def run? (expected : Expected) (frames : List Frame) : List Token → Option Json
  | [] =>
      match expected, frames with
      | .next value, [] => some value
      | _, _ => none
  | token :: tokens =>
      match step? expected frames token with
      | some (expected, frames) => run? expected frames tokens
      | none => none

def parse? (text : String) : Option Json := do
  run? .value [] (← Token.ofText? text.toList)

end StyleSplit.Json
