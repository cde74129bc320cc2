/-! TOML documents as trees of tables, and the rules on defining a table once. -/

namespace StyleSplit

namespace Toml

inductive Form where
  /-- Written between braces; nothing is added to it afterwards. -/
  | inline
  /-- On the way to a table with a header of its own. -/
  | implied
  /-- On the way to a dotted key. -/
  | dotted
  | headed
  deriving DecidableEq, Repr

end Toml

inductive Toml where
  | string (value : String)
  | boolean (value : Bool)
  | integer (value : Int)
  /-- A float, as it is written. -/
  | float (text : String)
  /-- A date, a time or both, as they are written. -/
  | moment (text : String)
  | array (items : List Toml)
  | table (form : Toml.Form) (entries : List (String × Toml))
  /-- Tables under repeated headers, the last one first. -/
  | tables (items : List (List (String × Toml)))

namespace Toml

abbrev Entries := List (String × Toml)

def Entries.put (entries : Entries) (key : String) (value : Toml) : Entries :=
  if (entries.lookup key).isSome then
    entries.map fun entry => if entry.1 == key then (key, value) else entry
  else entries ++ [(key, value)]

/-- Changes the table at the end of a path, making those on the way that are
missing. A dotted path does not run through tables with headers, and no path
runs through an inline table. -/
def Entries.change? (dotted : Bool)
    (change? : Form → Entries → Option (Form × Entries)) :
    List String → Form → Entries → Option (Form × Entries)
  | [], form, entries => change? form entries
  | key :: path, form, entries =>
      match entries.lookup key with
      | none => do
          let (inner, added) ←
            Entries.change? dotted change? path (if dotted then .dotted else .implied) []
          some (form, entries.put key (.table inner added))
      | some (.table inner nested) =>
          if inner = .inline ∨ (dotted = true ∧ inner = .headed) then none
          else do
            let (inner, nested) ← Entries.change? dotted change? path inner nested
            some (form, entries.put key (.table inner nested))
      | some (.tables (last :: items)) => do
          let (_, last) ← Entries.change? dotted change? path .headed last
          some (form, entries.put key (.tables (last :: items)))
      | some _ => none

/-- Adds an entry under a dotted key. A table made by dotted keys takes entries
by dotted keys only, and any other table none through them. -/
def Entries.addValue? (path : List String) (key : String) (value : Toml) (form : Form)
    (entries : Entries) : Option (Form × Entries) :=
  Entries.change? true
    (fun form entries =>
      if (form = .dotted) = (path = []) ∨ (entries.lookup key).isSome then none
      else some (form, entries.put key value))
    path form entries

/-- Opens the table of a header. Only a table that is merely implied so far can
still be given one. -/
def Entries.openTable? (path : List String) (key : String) (entries : Entries) :
    Option (Form × Entries) :=
  Entries.change? false
    (fun form entries =>
      match entries.lookup key with
      | none => some (form, entries.put key (.table .headed []))
      | some (.table .implied nested) =>
          some (form, entries.put key (.table .headed nested))
      | some _ => none)
    path .headed entries

def Entries.openRepeated? (path : List String) (key : String) (entries : Entries) :
    Option (Form × Entries) :=
  Entries.change? false
    (fun form entries =>
      match entries.lookup key with
      | none => some (form, entries.put key (.tables [[]]))
      | some (.tables items) => some (form, entries.put key (.tables ([] :: items)))
      | some _ => none)
    path .headed entries

end Toml

end StyleSplit
