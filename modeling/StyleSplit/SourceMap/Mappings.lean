import StyleSplit.SourceMap.Error
import StyleSplit.Text.Measure
import StyleSplit.Text.Split

/-! Decoding the mappings of a source map: lines end at semicolons, segments at
commas, and each field is the change of a running sum. -/

namespace StyleSplit

structure Origin (count : Nat) where
  source : Fin count
  line : UInt32
  column : UInt32
  deriving DecidableEq, Repr

/-- A segment starts at a generated column; it may point nowhere. -/
structure Segment (count : Nat) where
  column : UInt32
  origin : Option (Origin count)
  deriving DecidableEq, Repr

namespace Segment

/-- The sums that run on from line to line. Lines count from zero. -/
structure Sums where
  source : Nat := 0
  line : Nat := 0
  column : Nat := 0
  name : Nat := 0
  deriving DecidableEq, Repr

/-- A sum stays within the signed words of 64 bits, and is never negative. -/
def advance (quantity : Quantity) (sum : Nat) (change : Int64) : Except MapError Nat :=
  let result := (sum : Int) + change.toInt
  if Int64.maxValue.toInt < result then .error (.outOfRange quantity)
  else if result < 0 then .error (.negative quantity)
  else .ok result.toNat

def toWord (quantity : Quantity) (sum : Nat) : Except MapError UInt32 :=
  if sum < UInt32.size then .ok (.ofNat sum) else .error (.outOfRange quantity)

def Sums.advance (sums : Sums) (source line column : Int64) (name : Option Int64) :
    Except MapError Sums := do
  let source ← Segment.advance .sourceIndex sums.source source
  let line ← Segment.advance .sourceLine sums.line line
  let column ← Segment.advance .sourceColumn sums.column column
  let name ←
    match name with
    | some change => Segment.advance .nameIndex sums.name change
    | none => pure sums.name
  return ⟨source, line, column, name⟩

def Sums.origin (sums : Sums) (count : Nat) : Except MapError (Origin count) :=
  if h : sums.source < count then do
    let line ← toWord .sourceLine (sums.line + 1)
    let column ← toWord .sourceColumn sums.column
    return ⟨⟨sums.source, h⟩, line, column⟩
  else .error (.unlistedSource sums.source count)

structure Step (count : Nat) where
  sums : Sums
  generated : Nat
  segment : Segment count

def ofFields (count : Nat) (sums : Sums) (generated : Nat) (fields : List Int64) :
    Except MapError (Step count) := do
  match fields with
  | [] => .error (.fieldCount 0)
  | change :: fields =>
      let generated ← advance .generatedColumn generated change
      let (sums, origin) ←
        match fields with
        | [] => pure (sums, none)
        | [source, line, column] =>
            let sums ← sums.advance source line column none
            pure (sums, some (← sums.origin count))
        | [source, line, column, name] =>
            let sums ← sums.advance source line column (some name)
            pure (sums, some (← sums.origin count))
        | fields => .error (.fieldCount (fields.length + 1))
      return ⟨sums, generated, ⟨← toWord .generatedColumn generated, origin⟩⟩

def decodeFields (text : List Char) : Except MapError (List Int64) :=
  (Vlq.decodeAll (Text.utf8 text)).mapError .digits

def ofParts (count : Nat) (sums : Sums) (generated : Nat) :
    List (List Char) → Except MapError (Sums × List (Segment count))
  | [] => .ok (sums, [])
  | [] :: parts => ofParts count sums generated parts
  | part :: parts => do
      let step ← ofFields count sums generated (← decodeFields part)
      let (sums, segments) ← ofParts count step.sums step.generated parts
      return (sums, step.segment :: segments)

def ofLines (count : Nat) (sums : Sums) :
    List (List Char) → Except MapError (List (List (Segment count)))
  | [] => .ok []
  | line :: lines => do
      let (sums, segments) ← ofParts count sums 0 (Text.splitOn ',' line)
      return segments :: (← ofLines count sums lines)

/-- By generated column; segments of one column keep their order. -/
def sort (segments : List (Segment count)) : List (Segment count) :=
  segments.mergeSort fun first second => first.column ≤ second.column

def decode (count : Nat) (mappings : String) :
    Except MapError (List (List (Segment count))) :=
  (ofLines count {} (Text.splitOn ';' mappings.toList)).map (·.map sort)

end Segment

end StyleSplit
