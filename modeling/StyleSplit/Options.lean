import StyleSplit.Template
import StyleSplit.Text.Class
import StyleSplit.Toml.Parser

/-! The options of a run, how they are read, and which of them make sense. -/

namespace StyleSplit

/-- What a second opening delimiter of the same name does. -/
inductive ReopenPolicy where
  /-- It goes on with the block there is. -/
  | append
  /-- It starts a block of its own. -/
  | separate
  deriving DecidableEq, Repr

structure Options where
  filename : Template := {}
  sourceMaps : Bool := true
  reopen : ReopenPolicy := .append
  hash : DigestOptions := {}
  deriving DecidableEq, Repr

inductive OptionFault where
  | emptyTemplate
  | directoryTemplate (pattern : String)
  | constantTemplate (pattern : String)
  | emptyHash
  deriving DecidableEq, Repr

namespace OptionFault

def key : OptionFault → String
  | emptyTemplate | directoryTemplate _ | constantTemplate _ => "filename"
  | emptyHash => "hash.length"

def reason : OptionFault → String
  | emptyTemplate => "template is empty"
  | directoryTemplate pattern => "`" ++ pattern ++ "` names a directory, not a file"
  | constantTemplate pattern =>
      "`" ++ pattern ++
        "` has no [name] or [contenthash], so every block would get the same file"
  | emptyHash => "must be at least 1"

def message (fault : OptionFault) : String :=
  "Invalid config value for `" ++ fault.key ++ "`: " ++ fault.reason

end OptionFault

namespace Options

def fault? (options : Options) : Option OptionFault :=
  let pattern := options.filename.pattern
  if pattern.toList.all Text.isWhite then some .emptyTemplate
  else if pattern.toList.getLast? = some '/' then some (.directoryTemplate pattern)
  else if !options.filename.usesName && !options.filename.usesHash then
    some (.constantTemplate pattern)
  else if options.hash.length = 0 then some .emptyHash
  else none

/-! Reading options from a configuration. Every key is optional, and no other
keys are taken. -/

def text? : Toml → Option String
  | .string value => some value
  | _ => none

def flag? : Toml → Option Bool
  | .boolean value => some value
  | _ => none

def natural? : Toml → Option Nat
  | .integer value => if 0 ≤ value then some value.toNat else none
  | _ => none

def isEmptyContainer : Toml → Bool
  | .table _ entries => entries.isEmpty
  | .array items => items.isEmpty
  | _ => false

/-- A constant of an enumeration: its name, or a table whose only key is the
name, with nothing in it. -/
def constant? (constants : List (String × α)) : Toml → Option α
  | .string name => constants.lookup name
  | .table _ [(name, value)] =>
      if isEmptyContainer value then constants.lookup name else none
  | _ => none

def valueOf? (decode : Toml → Option α) (value : α) (name : String)
    (entries : Toml.Entries) : Option α :=
  match entries.lookup name with
  | some entry => decode entry
  | none => some value

def allNamed (names : List String) (entries : Toml.Entries) : Bool :=
  entries.all fun entry => names.contains entry.1

def item? (decode : Toml → Option α) (value : α) : Option Toml → Option α
  | some item => decode item
  | none => some value

def formats : List (String × DigestFormat) :=
  [("hex", .hex), ("base64", .base64)]

def policies : List (String × ReopenPolicy) :=
  [("append", .append), ("separate", .separate)]

/-- The options of the digest as a table, or as a list in the order of its
keys. -/
def hash? : Toml → Option DigestOptions
  | .table _ entries => do
      if allNamed ["digest", "length"] entries then
        some {
          format := ← valueOf? (constant? formats) .hex "digest" entries
          length := ← valueOf? natural? 20 "length" entries }
      else none
  | .array items => do
      some {
        format := ← item? (constant? formats) .hex items[0]?
        length := ← item? natural? 20 items[1]? }
  | .tables items => do
      let items := items.reverse.map (Toml.table .headed)
      some {
        format := ← item? (constant? formats) .hex items[0]?
        length := ← item? natural? 20 items[1]? }
  | _ => none

def ofEntries? (entries : Toml.Entries) : Option Options := do
  if allNamed ["filename", "source-maps", "reopen", "hash"] entries then
    some {
      filename := ← valueOf? (fun value => (text? value).map Template.mk) {} "filename" entries
      sourceMaps := ← valueOf? flag? true "source-maps" entries
      reopen := ← valueOf? (constant? policies) .append "reopen" entries
      hash := ← valueOf? hash? {} "hash" entries }
  else none

def ofText? (text : String) : Option Options :=
  (Toml.parse? text).bind ofEntries?

end Options

end StyleSplit
