import StyleSplit.Position.LineIndex
import StyleSplit.Proofs.Position.After
import StyleSplit.Proofs.Search

/-! The index of a text answers every position query as a scan from the start
of the text does. -/

namespace StyleSplit.LineIndex

open Position (lastLine lastLine_append)
open Text (byteLength unitLength)

def lastLineStart (text : List Char) : Nat :=
  byteLength text - byteLength (lastLine text)

theorem lastLineStart_concat (before : List Char) (c : Char) :
    lastLineStart (before ++ [c]) =
      if c = '\n' then byteLength before + 1 else lastLineStart before := by
  have hle := Position.byteLength_lastLine_le before
  unfold lastLineStart
  rw [lastLine_append, Text.byteLength_append]
  by_cases hc : c = '\n'
  · subst hc
    have hline : lastLine ['\n'] = [] := by decide
    rw [if_pos (List.mem_singleton.mpr rfl), if_pos rfl, hline]
    simp [Text.utf8Size_newline]
  · have hnot : '\n' ∉ [c] := by simpa using Ne.symm hc
    rw [if_neg hnot, if_neg hc, Text.byteLength_append]
    omega

/-- The column that the last checkpoint gives for `offset`, in the line that
starts at `lineStart`. -/
def columnFrom (checkpoint : Option (Nat × Nat)) (lineStart offset : Nat) : Nat :=
  match checkpoint with
  | some (byte, column) =>
      if lineStart < byte then column + (offset - byte) else offset - lineStart
  | none => offset - lineStart

theorem lastLineStart_le (before : List Char) : lastLineStart before ≤ byteLength before :=
  Nat.sub_le ..

theorem columnFrom_succ {checkpoint : Option (Nat × Nat)} {lineStart offset : Nat}
    (hline : lineStart ≤ offset) (hcheckpoint : ∀ entry ∈ checkpoint, entry.1 ≤ offset) :
    columnFrom checkpoint lineStart (offset + 1) =
      columnFrom checkpoint lineStart offset + 1 := by
  cases checkpoint with
  | none => exact Nat.succ_sub hline
  | some entry =>
      have hle := hcheckpoint entry rfl
      unfold columnFrom
      dsimp only
      split <;> omega

/-- What a scan holds once it has read `before`. -/
structure Scan.Read (scan : Scan) (before : List Char) : Prop where
  offset : scan.offset = byteLength before
  column : scan.column = unitLength (lastLine before)
  rows : scan.lineStarts.size = before.count '\n' + 1
  lineStart : scan.lineStarts.back? = some (lastLineStart before)
  lineStarts_le : ∀ start ∈ scan.lineStarts, start ≤ byteLength before
  checkpoints_le : ∀ checkpoint ∈ scan.checkpoints, checkpoint.1 ≤ byteLength before
  columnFrom : columnFrom scan.checkpoints.back? (lastLineStart before) (byteLength before) =
    unitLength (lastLine before)

theorem Scan.read_nil : Read {} [] := by
  constructor <;> simp [lastLineStart, lastLine, LineIndex.columnFrom]

theorem Scan.Read.newline {scan : Scan} {before : List Char} (h : scan.Read before) :
    (scan.next '\n').Read (before ++ ['\n']) := by
  have hline : lastLine (before ++ ['\n']) = [] := by
    rw [lastLine_append, if_pos (List.mem_singleton.mpr rfl)]
    decide
  have hstart := lastLineStart_concat before '\n'
  rw [if_pos rfl] at hstart
  have hbytes : byteLength (before ++ ['\n']) = byteLength before + 1 := by
    simp [Text.utf8Size_newline]
  have hnext : scan.next '\n' =
      { scan with
        offset := byteLength before + 1, column := 0
        lineStarts := scan.lineStarts.push (byteLength before + 1) } := by
    simp [next, h.offset, Text.utf8Size_newline]
  rw [hnext]
  refine ⟨hbytes.symm, ?_, ?_, ?_, ?_, ?_, ?_⟩
  · rw [hline]
    rfl
  · simp [h.rows]
  · rw [hstart]
    exact Array.back?_push ..
  · intro start hmem
    rw [hbytes]
    rcases Array.mem_push.mp hmem with hmem | rfl
    · exact Nat.le_succ_of_le (h.lineStarts_le start hmem)
    · exact Nat.le_refl _
  · intro checkpoint hmem
    rw [hbytes]
    exact Nat.le_succ_of_le (h.checkpoints_le checkpoint hmem)
  · rw [hline, hstart, hbytes]
    unfold LineIndex.columnFrom
    cases hlast : scan.checkpoints.back? with
    | none => simp
    | some checkpoint =>
        have hle := h.checkpoints_le checkpoint (Array.mem_of_back? hlast)
        dsimp only
        rw [if_neg (by omega), Nat.sub_self]
        rfl

theorem Scan.Read.char {scan : Scan} {before : List Char} {c : Char}
    (h : scan.Read before) (hc : c ≠ '\n') : (scan.next c).Read (before ++ [c]) := by
  have hpos := c.utf8Size_pos
  have hline : lastLine (before ++ [c]) = lastLine before ++ [c] := by
    rw [lastLine_append, if_neg (by simpa using Ne.symm hc)]
  have hstart := lastLineStart_concat before c
  rw [if_neg hc] at hstart
  have hbytes : byteLength (before ++ [c]) = byteLength before + c.utf8Size := by simp
  have hunits : unitLength (lastLine (before ++ [c])) =
      unitLength (lastLine before) + Text.unitSize c := by
    rw [hline]
    simp
  have hcount : (before ++ [c]).count '\n' = before.count '\n' := by
    simp [List.count_append, hc]
  have hstarts : ∀ start ∈ scan.lineStarts, start ≤ byteLength (before ++ [c]) := by
    intro start hmem
    have hle := h.lineStarts_le start hmem
    omega
  have hcheckpoints : ∀ checkpoint ∈ scan.checkpoints,
      checkpoint.1 ≤ byteLength (before ++ [c]) := by
    intro checkpoint hmem
    have hle := h.checkpoints_le checkpoint hmem
    omega
  by_cases hone : c.utf8Size = 1
  · have hnext : scan.next c =
        { scan with
          offset := byteLength before + c.utf8Size
          column := unitLength (lastLine before) + Text.unitSize c } := by
      simp [next, hc, hone, h.offset, h.column]
    rw [hnext]
    refine ⟨hbytes.symm, hunits.symm, ?_, ?_, hstarts, hcheckpoints, ?_⟩
    · rw [hcount]
      exact h.rows
    · rw [hstart]
      exact h.lineStart
    · have hunit : Text.unitSize c = 1 := by
        have hle := Text.unitSize_le_utf8Size c
        have hpos := Text.unitSize_pos c
        omega
      rw [hstart, hbytes, hunits, hunit, hone, columnFrom_succ (lastLineStart_le before),
        h.columnFrom]
      intro checkpoint hmem
      exact h.checkpoints_le checkpoint (Array.mem_of_back? hmem)
  · have hnext : scan.next c =
        { scan with
          offset := byteLength before + c.utf8Size
          column := unitLength (lastLine before) + Text.unitSize c
          checkpoints := scan.checkpoints.push
            (byteLength before + c.utf8Size,
              unitLength (lastLine before) + Text.unitSize c) } := by
      simp [next, hc, hone, h.offset, h.column]
    rw [hnext]
    refine ⟨hbytes.symm, hunits.symm, ?_, ?_, hstarts, ?_, ?_⟩
    · rw [hcount]
      exact h.rows
    · rw [hstart]
      exact h.lineStart
    · intro checkpoint hmem
      rcases Array.mem_push.mp hmem with hmem | rfl
      · exact hcheckpoints checkpoint hmem
      · exact Nat.le_of_eq hbytes.symm
    · have hbefore := lastLineStart_le before
      rw [hstart, hbytes, hunits, Array.back?_push]
      unfold LineIndex.columnFrom
      dsimp only
      rw [if_pos (by omega), Nat.sub_self, Nat.add_zero]

theorem Scan.Read.next {scan : Scan} {before : List Char} (h : scan.Read before) (c : Char) :
    (scan.next c).Read (before ++ [c]) := by
  by_cases hc : c = '\n'
  · subst hc
    exact h.newline
  · exact h.char hc

theorem Scan.Read.foldl {scan : Scan} {before : List Char} (h : scan.Read before)
    (text : List Char) : (text.foldl Scan.next scan).Read (before ++ text) := by
  induction text generalizing scan before with
  | nil => simpa using h
  | cons c text ih =>
      have hrest := ih (h.next c)
      rwa [List.append_assoc, List.singleton_append] at hrest

theorem Scan.foldl_next_extends (scan : Scan) (text : List Char) :
    ∃ starts checkpoints,
      (text.foldl Scan.next scan).lineStarts.toList = scan.lineStarts.toList ++ starts ∧
      (text.foldl Scan.next scan).checkpoints.toList =
        scan.checkpoints.toList ++ checkpoints ∧
      (∀ start ∈ starts, scan.offset < start) ∧
      ∀ checkpoint ∈ checkpoints, scan.offset < checkpoint.1 := by
  induction text generalizing scan with
  | nil => exact ⟨[], [], by simp, by simp, by simp, by simp⟩
  | cons c text ih =>
      have hpos := c.utf8Size_pos
      obtain ⟨starts, checkpoints, hstarts, hcheckpoints, hstart, hcheckpoint⟩ :=
        ih (scan.next c)
      have hoffset : (scan.next c).offset = scan.offset + c.utf8Size := by
        unfold Scan.next
        dsimp only
        split
        · rfl
        · split <;> rfl
      have hlater : ∀ start ∈ starts, scan.offset < start := by
        intro start hmem
        have hlt := hstart start hmem
        omega
      have hfurther : ∀ checkpoint ∈ checkpoints, scan.offset < checkpoint.1 := by
        intro checkpoint hmem
        have hlt := hcheckpoint checkpoint hmem
        omega
      rw [List.foldl_cons, hstarts, hcheckpoints]
      unfold Scan.next
      dsimp only
      split
      · refine ⟨(scan.offset + c.utf8Size) :: starts, checkpoints, by simp, rfl, ?_, hfurther⟩
        intro start hmem
        rcases List.mem_cons.mp hmem with rfl | hmem
        · omega
        · exact hlater start hmem
      · split
        · exact ⟨starts, checkpoints, rfl, rfl, hlater, hfurther⟩
        · refine ⟨starts, _ :: checkpoints, rfl, by simp; rfl, hlater, ?_⟩
          intro checkpoint hmem
          rcases List.mem_cons.mp hmem with rfl | hmem
          · exact Nat.lt_add_of_pos_right hpos
          · exact hfurther checkpoint hmem

theorem column_eq_columnFrom {index : LineIndex} {first second : List (Nat × Nat)}
    {lineStart offset : Nat} (hindex : index.checkpoints = (first ++ second).toArray)
    (hfirst : ∀ checkpoint ∈ first, checkpoint.1 ≤ offset)
    (hsecond : ∀ checkpoint ∈ second, offset < checkpoint.1) :
    index.column lineStart offset = columnFrom first.getLast? lineStart offset := by
  have hpoint : partitionPoint index.checkpoints (·.1 ≤ offset) = first.length := by
    rw [hindex]
    apply partitionPoint_append
    · intro checkpoint hmem
      simpa using hfirst checkpoint hmem
    · intro checkpoint hmem
      simpa using hsecond checkpoint hmem
  unfold column columnFrom
  rw [hpoint, hindex, List.getElem?_toArray]
  cases hlast : first.getLast? with
  | none =>
      rw [List.getLast?_eq_none_iff] at hlast
      subst hlast
      cases second with
      | nil => rfl
      | cons checkpoint second =>
          have hlt := hsecond checkpoint List.mem_cons_self
          have hnot : ¬ checkpoint.1 ≤ offset := by omega
          simp [hnot]
  | some checkpoint =>
      have hle := hfirst checkpoint (List.mem_of_getLast? hlast)
      have hpos : 0 < first.length := by
        rw [List.length_pos_iff]
        rintro rfl
        simp at hlast
      rw [List.getElem?_append_left (by omega), ← List.getLast?_eq_getElem?, hlast]
      dsimp only
      simp [hle]

theorem getD_lineStarts {first : Array Nat} {row start : Nat} (second : List Nat)
    (hsize : first.size = row + 1) (hback : first.back? = some start) :
    (first.toList ++ second).toArray.getD row 0 = start := by
  rw [Array.back?, hsize, Nat.add_sub_cancel] at hback
  rw [Array.getD_eq_getD_getElem?, List.getElem?_toArray, List.getElem?_append_left,
    Array.getElem?_toList, hback]
  · rfl
  · rw [Array.length_toList]
    omega

theorem position?_ofText_append {text : String} {before after : List Char}
    (htext : text.toList = before ++ after) :
    (ofText text).position? (byteLength before) = some (Position.after before) := by
  have hboundary : Text.isBoundary text (byteLength before) = true := by
    rw [Text.isBoundary_eq_isSome_cut?, htext, Text.cut?_byteLength]
    rfl
  have hread : (before.foldl Scan.next {}).Read before := by
    simpa using Scan.read_nil.foldl before
  obtain ⟨starts, checkpoints, hstarts, hcheckpoints, hlater, hfurther⟩ :=
    Scan.foldl_next_extends (before.foldl Scan.next {}) after
  rw [hread.offset] at hlater hfurther
  generalize hscan : before.foldl Scan.next {} = scan at *
  have hindex : ofText text =
      ⟨text, (scan.lineStarts.toList ++ starts).toArray,
        (scan.checkpoints.toList ++ checkpoints).toArray⟩ := by
    simp only [ofText, htext, List.foldl_append, hscan, ← hstarts, ← hcheckpoints,
      Array.toArray_toList]
  have hrow : partitionPoint (scan.lineStarts.toList ++ starts).toArray
      (· ≤ byteLength before) = before.count '\n' + 1 := by
    rw [partitionPoint_append, Array.length_toList, hread.rows]
    · intro start hmem
      simpa using hread.lineStarts_le start (Array.mem_toList_iff.mp hmem)
    · intro start hmem
      simpa using hlater start hmem
  have hcolumn : column (ofText text) (lastLineStart before) (byteLength before) =
      unitLength (lastLine before) := by
    rw [← hread.columnFrom, ← Array.getLast?_toList]
    apply column_eq_columnFrom (congrArg LineIndex.checkpoints hindex) _ hfurther
    intro checkpoint hmem
    exact hread.checkpoints_le checkpoint (Array.mem_toList_iff.mp hmem)
  rw [hindex] at hcolumn
  rw [hindex, position?]
  dsimp only
  rw [if_pos hboundary, hrow, Nat.add_sub_cancel,
    getD_lineStarts starts hread.rows hread.lineStart, hcolumn]
  rfl

/-- Binary search over the index gives what reading the text again gives. -/
theorem position?_ofText (text : String) (offset : Nat) :
    (ofText text).position? offset = Position.ofOffset? text offset := by
  rw [Position.ofOffset?]
  cases hcut : Text.cut? text.toList offset with
  | none =>
      have hboundary : Text.isBoundary text offset = false := by
        rw [Text.isBoundary_eq_isSome_cut?, hcut]
        rfl
      simp [position?, ofText, hboundary]
  | some cut =>
      obtain ⟨htext, rfl⟩ := Text.eq_of_cut? hcut
      exact position?_ofText_append htext

structure Scan.Sorted (scan : Scan) : Prop where
  lineStarts : scan.lineStarts.toList.Pairwise (· < ·)
  checkpoints : scan.checkpoints.toList.Pairwise fun first second => first.1 < second.1

theorem Scan.Sorted.next {scan : Scan} {before : List Char} (h : scan.Sorted)
    (hread : scan.Read before) (c : Char) : (scan.next c).Sorted := by
  have hpos := c.utf8Size_pos
  unfold Scan.next
  dsimp only
  split
  · refine ⟨?_, h.checkpoints⟩
    rw [Array.toList_push, List.pairwise_append]
    refine ⟨h.lineStarts, List.pairwise_singleton .., ?_⟩
    intro start hstart last hlast
    have hle := hread.lineStarts_le start (Array.mem_toList_iff.mp hstart)
    rw [List.mem_singleton.mp hlast, hread.offset]
    omega
  · split
    · exact ⟨h.lineStarts, h.checkpoints⟩
    · refine ⟨h.lineStarts, ?_⟩
      rw [Array.toList_push, List.pairwise_append]
      refine ⟨h.checkpoints, List.pairwise_singleton .., ?_⟩
      intro checkpoint hcheckpoint last hlast
      have hle := hread.checkpoints_le checkpoint (Array.mem_toList_iff.mp hcheckpoint)
      rw [List.mem_singleton.mp hlast, hread.offset]
      dsimp only
      omega

theorem Scan.Sorted.foldl {scan : Scan} {before : List Char} (h : scan.Sorted)
    (hread : scan.Read before) (text : List Char) : (text.foldl Scan.next scan).Sorted := by
  induction text generalizing scan before with
  | nil => exact h
  | cons c text ih => exact ih (h.next hread c) (hread.next c)

theorem sorted_ofText (text : String) :
    (ofText text).lineStarts.toList.Pairwise (· < ·) ∧
      (ofText text).checkpoints.toList.Pairwise fun first second => first.1 < second.1 := by
  have hstart : Scan.Sorted {} := ⟨List.pairwise_singleton .., List.Pairwise.nil⟩
  have hsorted := hstart.foldl Scan.read_nil text.toList
  exact ⟨hsorted.lineStarts, hsorted.checkpoints⟩

theorem getElem?_zero_lineStarts (text : String) : (ofText text).lineStarts[0]? = some 0 := by
  obtain ⟨starts, -, hstarts, -⟩ := Scan.foldl_next_extends {} text.toList
  rw [← Array.getElem?_toList]
  exact congrArg (·[0]?) hstarts

theorem exists_row (text : String) (offset : Nat) :
    ∃ row start, partitionPoint (ofText text).lineStarts (· ≤ offset) = row + 1 ∧
      (ofText text).lineStarts[row]? = some start ∧ start ≤ offset ∧
      ∀ next, (ofText text).lineStarts[row + 1]? = some next → offset < next := by
  have hsorted : (ofText text).lineStarts.toList.Pairwise fun first second =>
      decide (second ≤ offset) = true → decide (first ≤ offset) = true := by
    apply (sorted_ofText text).1.imp
    intro first second hlt
    simp only [decide_eq_true_eq]
    omega
  obtain ⟨hrow, hnext⟩ := partitionPoint_bounds hsorted
  cases hpoint : partitionPoint (ofText text).lineStarts (· ≤ offset) with
  | zero =>
      rw [hpoint] at hnext
      have hfirst := hnext 0 (getElem?_zero_lineStarts text)
      simp at hfirst
  | succ row =>
      obtain ⟨start, hstart, hle⟩ := hrow row hpoint
      rw [hpoint] at hnext
      refine ⟨row, start, rfl, hstart, of_decide_eq_true hle, ?_⟩
      intro next hlater
      have hgt := hnext next hlater
      simpa using hgt

theorem exists_checkpoint {text : String} {offset count : Nat}
    (h : partitionPoint (ofText text).checkpoints (·.1 ≤ offset) = count + 1) :
    ∃ checkpoint, (ofText text).checkpoints[count]? = some checkpoint ∧
      checkpoint.1 ≤ offset := by
  have hsorted : (ofText text).checkpoints.toList.Pairwise fun first second =>
      decide (second.1 ≤ offset) = true → decide (first.1 ≤ offset) = true := by
    apply (sorted_ofText text).2.imp
    intro first second hlt
    simp only [decide_eq_true_eq]
    omega
  obtain ⟨checkpoint, hcheckpoint, hle⟩ := (partitionPoint_bounds hsorted).1 count h
  exact ⟨checkpoint, hcheckpoint, of_decide_eq_true hle⟩

/-- For every offset, in the text or not, the index gives what reading the text again
gives, which is a position just where the text can be cut. The searches never leave the
tables: the row that is found is that of the last line to start at or before the offset,
and a checkpoint that is found is not past the offset. -/
theorem position?_eq_scan (text : String) (offset : Nat) :
    let index := ofText text
    index.position? offset = Position.ofOffset? text offset ∧
      ((index.position? offset).isSome = true ↔
        ∃ before after, text.toList = before ++ after ∧ byteLength before = offset) ∧
      (∃ row start, partitionPoint index.lineStarts (· ≤ offset) = row + 1 ∧
        index.lineStarts[row]? = some start ∧ start ≤ offset ∧
        ∀ next, index.lineStarts[row + 1]? = some next → offset < next) ∧
      ∀ count, partitionPoint index.checkpoints (·.1 ≤ offset) = count + 1 →
        ∃ checkpoint, index.checkpoints[count]? = some checkpoint ∧ checkpoint.1 ≤ offset := by
  intro index
  have hscan : index.position? offset = Position.ofOffset? text offset :=
    position?_ofText text offset
  refine ⟨hscan, ?_, exists_row text offset, fun count hcount => exists_checkpoint hcount⟩
  rw [hscan, Option.isSome_iff_exists]
  constructor
  · rintro ⟨position, hposition⟩
    obtain ⟨before, after, htext, hbefore, -⟩ := Position.ofOffset?_eq_some_iff.mp hposition
    exact ⟨before, after, htext, hbefore⟩
  · rintro ⟨before, after, htext, hbefore⟩
    exact ⟨_, Position.ofOffset?_eq_some_iff.mpr ⟨before, after, htext, hbefore, rfl⟩⟩

end StyleSplit.LineIndex
