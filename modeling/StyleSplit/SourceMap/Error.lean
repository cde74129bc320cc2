import StyleSplit.SourceMap.Vlq

/-! Why a source map cannot be read. -/

namespace StyleSplit

inductive Quantity where
  | generatedColumn
  | sourceIndex
  | sourceLine
  | sourceColumn
  | nameIndex
  deriving DecidableEq, Repr

def Quantity.name : Quantity → String
  | generatedColumn => "generated column"
  | sourceIndex => "source index"
  | sourceLine => "original line"
  | sourceColumn => "original column"
  | nameIndex => "name index"

inductive MapError where
  | malformed
  | unsupportedVersion (version : UInt32)
  | digits (fault : Vlq.Fault)
  | fieldCount (count : Nat)
  | unlistedSource (index count : Nat)
  | negative (quantity : Quantity)
  | outOfRange (quantity : Quantity)
  deriving DecidableEq, Repr

namespace MapError

def hexDigits (value : Nat) : List Char :=
  Nat.toDigits 16 value

/-- A byte between apostrophes, as the character of that code; what would not
show is escaped. -/
def quoteByte (byte : UInt8) : String :=
  let c := Char.ofNat byte.toNat
  let shown : List Char :=
    if c = '\x00' then ['\\', '0']
    else if c = '\t' then ['\\', 't']
    else if c = '\r' then ['\\', 'r']
    else if c = '\n' then ['\\', 'n']
    else if c = '\'' then ['\\', '\'']
    else if c = '\\' then ['\\', '\\']
    else if byte < 0x20 ∨ (0x7f ≤ byte ∧ byte ≤ 0xa0) ∨ byte = 0xad then
      ['\\', 'u', '\x7b'] ++ hexDigits byte.toNat ++ ['\x7d']
    else [c]
  .ofList ('\'' :: shown ++ ['\''])

def message : MapError → String
  | malformed => "invalid source map JSON: not a source map"
  | unsupportedVersion version =>
      "unsupported source map version " ++ toString version.toNat ++ ", expected 3"
  | digits .truncated => "truncated VLQ value in mappings"
  | digits .overflow => "VLQ value overflows in mappings"
  | digits (.invalidDigit byte) =>
      "invalid base64 VLQ character " ++ quoteByte byte ++ " in mappings"
  | fieldCount count =>
      "mapping segment has " ++ toString count ++ " fields, expected 1, 4 or 5"
  | unlistedSource index count =>
      "mapping references source index " ++ toString index ++ " but only " ++
        toString count ++ " sources are listed"
  | negative quantity => "mapping decodes to a negative " ++ quantity.name
  | outOfRange quantity => "mapping decodes to an out-of-range " ++ quantity.name

end MapError

end StyleSplit
