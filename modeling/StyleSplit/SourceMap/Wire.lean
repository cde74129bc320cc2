import StyleSplit.Json.Decode

/-! A version 3 source map as it is written. -/

namespace StyleSplit

structure WireMap where
  version : UInt32
  file : Option String := none
  sourceRoot : Option String := none
  sources : List (Option String) := []
  /-- The texts of the sources, where they are embedded. -/
  contents : Option (List (Option String)) := none
  names : List String := []
  mappings : String
  deriving DecidableEq, Repr

namespace WireMap

def fieldNames : List String :=
  ["version", "file", "sourceRoot", "sources", "sourcesContent", "names", "mappings"]

def ofJson? (json : Json) : Option WireMap := do
  match ← json.fields? fieldNames .ignored with
  | [version, file, sourceRoot, sources, contents, names, mappings] =>
      let optionalText := Json.optional? Json.text?
      let optionalTexts := Json.list? optionalText
      some {
        version := .ofNat (← Json.required? (Json.natural? UInt32.size) version)
        file := ← Json.defaulted? optionalText none file
        sourceRoot := ← Json.defaulted? optionalText none sourceRoot
        sources := ← Json.defaulted? optionalTexts [] sources
        contents := ← Json.defaulted? (Json.optional? optionalTexts) none contents
        names := ← Json.defaulted? (Json.list? Json.text?) [] names
        mappings := ← Json.required? Json.text? mappings }
  | _ => none

def nullable (text : Option String) : Json :=
  text.elim .null .ofText

def toJson (map : WireMap) : Json :=
  let optional (name : String) (value : Option Json) : List (String × Json) :=
    value.toList.map (name, ·)
  .record ([("version", .ofNat map.version.toNat)] ++
    optional "file" (map.file.map .ofText) ++
    optional "sourceRoot" (map.sourceRoot.map .ofText) ++
    [("sources", .array (map.sources.map nullable))] ++
    optional "sourcesContent" (map.contents.map fun texts => .array (texts.map nullable)) ++
    [("names", .array (map.names.map .ofText)), ("mappings", .ofText map.mappings)])

def toText (map : WireMap) : String :=
  map.toJson.compact

end WireMap

end StyleSplit
