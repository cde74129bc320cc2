import StyleSplit.Json.Basic

/-! Taking typed values out of JSON. -/

namespace StyleSplit.Json

def text? : Json → Option String
  | string value => value
  | _ => none

def list? (decode : Json → Option α) : Json → Option (List α)
  | array items => items.mapM decode
  | _ => none

def optional? (decode : Json → Option α) : Json → Option (Option α)
  | null => some none
  | value => (decode value).map some

def natural? (bound : Nat) : Json → Option Nat
  | number literal =>
      if literal.toList.all Char.isDigit then
        let value := literal.toList.foldl (fun value c => value * 10 + (c.toNat - 48)) 0
        if value < bound then some value else none
      else none
  | _ => none

inductive Strangers where
  | ignored
  | refused
  deriving DecidableEq, Repr

def fieldOnce? (fields : List (Option String × Json)) (name : String) :
    Option (Option Json) :=
  match fields.filter (·.1 == some name) with
  | [] => some none
  | [(_, value)] => some (some value)
  | _ => none

/-- The values of the named fields, in the order of the names. A record is
written as an object, or as an array of all its fields. -/
def fields? (names : List String) (strangers : Strangers) :
    Json → Option (List (Option Json))
  | array items => if items.length = names.length then some (items.map some) else none
  | object fields =>
      if fields.all fun (name, _) =>
          name.any fun name => strangers == .ignored || names.contains name then
        names.mapM (fieldOnce? fields)
      else none
  | _ => none

/-- A constant of an enumeration: its name, or an object that gives the name
the value null. -/
def constant? (constants : List (String × α)) : Json → Option α
  | string (some name) => constants.lookup name
  | object [(some name, null)] => constants.lookup name
  | _ => none

def required? (decode : Json → Option α) (field : Option Json) : Option α :=
  field.bind decode

def defaulted? (decode : Json → Option α) (value : α) (field : Option Json) : Option α :=
  match field with
  | none => some value
  | some field => decode field

end StyleSplit.Json
