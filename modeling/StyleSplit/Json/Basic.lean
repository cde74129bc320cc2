/-! JSON values and their two printed forms. -/

namespace StyleSplit

inductive Json where
  | null
  | bool (value : Bool)
  /-- A number is kept as it is written. -/
  | number (literal : String)
  /-- `none` when the escapes leave a surrogate unpaired: JSON has such
  strings, but no text is denoted by them. -/
  | string (value : Option String)
  | array (items : List Json)
  | object (fields : List (Option String × Json))

namespace Json

def ofText (text : String) : Json :=
  string (some text)

def ofNat (value : Nat) : Json :=
  number (toString value)

def record (fields : List (String × Json)) : Json :=
  object (fields.map fun (name, value) => (some name, value))

def hexDigit (value : Nat) : Char :=
  "0123456789abcdef".toList.getD value '0'

def escapeChar (c : Char) : List Char :=
  match c with
  | '"' => ['\\', '"']
  | '\\' => ['\\', '\\']
  | '\x08' => ['\\', 'b']
  | '\x0c' => ['\\', 'f']
  | '\n' => ['\\', 'n']
  | '\r' => ['\\', 'r']
  | '\t' => ['\\', 't']
  | c =>
      if c.toNat < 0x20 then
        ['\\', 'u', '0', '0', hexDigit (c.toNat / 16), hexDigit (c.toNat % 16)]
      else [c]

/-- A string literal; a string that denotes no text is written as U+FFFD. -/
def quote (value : Option String) : String :=
  .ofList ('"' :: ((value.getD "\ufffd").toList.flatMap escapeChar) ++ ['"'])

mutual

def compact : Json → String
  | null => "null"
  | bool value => if value then "true" else "false"
  | number literal => literal
  | string value => quote value
  | array items => "[" ++ ",".intercalate (compactItems items) ++ "]"
  | object fields => "\x7b" ++ ",".intercalate (compactFields fields) ++ "\x7d"

def compactItems : List Json → List String
  | [] => []
  | item :: items => item.compact :: compactItems items

def compactFields : List (Option String × Json) → List String
  | [] => []
  | (name, value) :: fields => (quote name ++ ":" ++ value.compact) :: compactFields fields

end

def block (opening closing : String) (indent : Nat) (entries : List String) : String :=
  if entries.isEmpty then opening ++ closing
  else
    let margin (width : Nat) : String := "\n" ++ "".pushn ' ' width
    opening ++ margin (indent + 2) ++ ("," ++ margin (indent + 2)).intercalate entries ++
      margin indent ++ closing

mutual

def pretty (indent : Nat) : Json → String
  | null => "null"
  | bool value => if value then "true" else "false"
  | number literal => literal
  | string value => quote value
  | array items => block "[" "]" indent (prettyItems (indent + 2) items)
  | object fields => block "\x7b" "\x7d" indent (prettyFields (indent + 2) fields)

def prettyItems (indent : Nat) : List Json → List String
  | [] => []
  | item :: items => item.pretty indent :: prettyItems indent items

def prettyFields (indent : Nat) : List (Option String × Json) → List String
  | [] => []
  | (name, value) :: fields =>
      (quote name ++ ": " ++ value.pretty indent) :: prettyFields indent fields

end

end Json

end StyleSplit
