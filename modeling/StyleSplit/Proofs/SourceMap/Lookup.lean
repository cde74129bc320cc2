import StyleSplit.Proofs.Search
import StyleSplit.SourceMap

/-! Looking up a generated position is the same as going through its line. -/

namespace StyleSplit.SourceMap

def row {α : Type} (lines : List (List α)) (line : UInt32) : List α :=
  if line = 0 then [] else lines.getD (line.toNat - 1) []

theorem exists_of_mem_row {α : Type} {lines : List (List α)} {line : UInt32} {x : α}
    (hx : x ∈ row lines line) : ∃ elements ∈ lines, x ∈ elements := by
  unfold row at hx
  split at hx
  · cases hx
  · rw [List.getD_eq_getElem?_getD] at hx
    cases helements : lines[line.toNat - 1]? with
    | none => simp [helements] at hx
    | some elements =>
        rw [helements] at hx
        exact ⟨elements, List.mem_of_getElem? helements, hx⟩

theorem row_map {α β : Type} (f : List α → List β) (hnil : f [] = []) (lines : List (List α))
    (line : UInt32) : row (lines.map f) line = f (row lines line) := by
  unfold row
  split
  · exact hnil.symm
  · rw [List.getD_eq_getElem?_getD, List.getD_eq_getElem?_getD, List.getElem?_map]
    cases lines[line.toNat - 1]? with
    | none => exact hnil.symm
    | some elements => rfl

theorem toList_segmentsOf {map : SourceMap} {lines : List (List (Segment map.sources.size))}
    (hlines : map.lines = (lines.map List.toArray).toArray) (line : UInt32) :
    (map.segmentsOf line).toList = row lines line := by
  rw [segmentsOf, hlines, row, Array.getD_eq_getD_getElem?, List.getElem?_toArray,
    List.getElem?_map, List.getD_eq_getElem?_getD]
  split
  · rfl
  · cases lines[line.toNat - 1]? <;> rfl

theorem pairwise_column_le {count : Nat} {segments : List (Segment count)}
    (hsorted : segments.Pairwise fun first second => first.column ≤ second.column)
    (column : UInt32) :
    segments.Pairwise fun first second =>
      decide (second.column ≤ column) = true → decide (first.column ≤ column) = true := by
  apply hsorted.imp
  intro first second hle hsecond
  exact decide_eq_true (UInt32.le_trans hle (of_decide_eq_true hsecond))

/-- On a line that is sorted by column the answer is the origin of the last segment
that starts at or before the position. -/
theorem sourcePosition?_eq_getLast? {map : SourceMap} {position : Position}
    (hsorted : (map.segmentsOf position.line).toList.Pairwise
      fun first second => first.column ≤ second.column) :
    map.sourcePosition? position =
      (((map.segmentsOf position.line).toList.filter
        (·.column ≤ position.column)).getLast?).bind fun segment =>
          segment.origin.map map.sourcePosition := by
  have hordered := pairwise_column_le hsorted position.column
  have hpoint := partitionPoint_eq_length_filter hordered
  rw [Array.toArray_toList] at hpoint
  unfold sourcePosition?
  dsimp only
  rw [hpoint]
  split
  · rename_i hzero
    rw [List.length_eq_zero_iff.mp hzero]
    rfl
  · rename_i count hcount
    rw [← Array.getElem?_toList, getElem?_of_length_filter hordered hcount]
    rfl

theorem sourcePosition?_of_line_eq_zero {map : SourceMap} {position : Position}
    (hline : position.line = 0) : map.sourcePosition? position = none := by
  have hsegments : map.segmentsOf position.line = #[] := by
    rw [hline]
    rfl
  rw [sourcePosition?_eq_getLast?, hsegments]
  · rfl
  · rw [hsegments]
    exact List.Pairwise.nil

end StyleSplit.SourceMap
