import StyleSplit.Position.Cursor
import StyleSplit.Proofs.Text.Slice

/-! The position after a text: it can be counted a character at a time, and it
grows with the text. -/

namespace StyleSplit.Position

open Text (byteLength unitLength)

theorem lastLine_of_not_mem {text : List Char} (h : '\n' ∉ text) : lastLine text = text := by
  rw [lastLine, List.takeWhile_eq_self_iff.mpr, List.reverse_reverse]
  intro c hc
  have hne : c ≠ '\n' := fun heq => h (heq ▸ List.mem_reverse.mp hc)
  simpa using hne

theorem lastLine_append_newline (before text : List Char) (h : '\n' ∉ text) :
    lastLine (before ++ '\n' :: text) = text := by
  have hall : ∀ c ∈ text.reverse, decide (c ≠ '\n') = true := by
    intro c hc
    have hne : c ≠ '\n' := fun heq => h (heq ▸ List.mem_reverse.mp hc)
    simpa using hne
  rw [lastLine, List.reverse_append, List.reverse_cons, List.append_assoc,
    List.takeWhile_append_of_pos hall]
  simp

theorem exists_lastLine {text : List Char} (h : '\n' ∈ text) :
    ∃ before line, text = before ++ '\n' :: line ∧ '\n' ∉ line := by
  induction text with
  | nil => simp at h
  | cons c text ih =>
      by_cases htext : '\n' ∈ text
      · obtain ⟨before, line, heq, hline⟩ := ih htext
        exact ⟨c :: before, line, by rw [heq, List.cons_append], hline⟩
      · rcases List.mem_cons.mp h with rfl | hmem
        · exact ⟨[], text, rfl, htext⟩
        · exact absurd hmem htext

theorem lastLine_append (before text : List Char) :
    lastLine (before ++ text) =
      if '\n' ∈ text then lastLine text else lastLine before ++ text := by
  split
  · rename_i hmem
    obtain ⟨first, line, rfl, hline⟩ := exists_lastLine hmem
    rw [← List.append_assoc, lastLine_append_newline _ _ hline,
      lastLine_append_newline _ _ hline]
  · rename_i hnot
    by_cases hbefore : '\n' ∈ before
    · obtain ⟨first, line, rfl, hline⟩ := exists_lastLine hbefore
      have hrest : '\n' ∉ line ++ text := by
        rw [List.mem_append]
        exact fun h => h.elim hline hnot
      rw [List.append_assoc, List.cons_append, lastLine_append_newline _ _ hrest,
        lastLine_append_newline _ _ hline]
    · rw [lastLine_of_not_mem hbefore, lastLine_of_not_mem]
      rw [List.mem_append]
      exact fun h => h.elim hbefore hnot

theorem lastLine_cons {c : Char} {text : List Char} (h : c = '\n' ∨ '\n' ∈ text) :
    lastLine (c :: text) = lastLine text := by
  rw [← List.singleton_append, lastLine_append]
  split
  · rfl
  · rename_i hnot
    obtain rfl : c = '\n' := h.resolve_right hnot
    have hline : lastLine ['\n'] = [] := by decide
    rw [hline, List.nil_append, lastLine_of_not_mem hnot]

theorem byteLength_lastLine_le (text : List Char) :
    byteLength (lastLine text) ≤ byteLength text := by
  by_cases hmem : '\n' ∈ text
  · obtain ⟨before, line, rfl, hline⟩ := exists_lastLine hmem
    rw [lastLine_append_newline _ _ hline, Text.byteLength_append, Text.byteLength_cons]
    omega
  · rw [lastLine_of_not_mem hmem]

theorem after_concat (before : List Char) (c : Char) :
    after (before ++ [c]) = (after before).next c := by
  unfold after next
  rw [lastLine_append, List.count_append]
  by_cases hc : c = '\n'
  · subst hc
    rw [if_pos (List.mem_singleton.mpr rfl), if_pos rfl]
    have hline : lastLine ['\n'] = [] := by decide
    rw [hline]
    simp
  · have hnot : '\n' ∉ [c] := by simpa using Ne.symm hc
    rw [if_neg hnot, if_neg hc]
    simp [hc]

theorem after_append (before text : List Char) :
    after (before ++ text) = (after before).advance text := by
  induction text generalizing before with
  | nil => simp
  | cons c text ih =>
      have hsplit : before ++ c :: text = (before ++ [c]) ++ text := by simp
      rw [hsplit, ih, after_concat]
      rfl

/-! Under 2^32 bytes neither count wraps around. -/

theorem line_after_of_count {text : List Char} (h : text.count '\n' + 1 < 2 ^ 32) :
    (after text).line.toNat = text.count '\n' + 1 :=
  UInt32.toNat_ofNat_of_lt' h

theorem line_after {text : List Char} (h : byteLength text + 1 < 2 ^ 32) :
    (after text).line.toNat = text.count '\n' + 1 := by
  have hcount := Text.count_newline_le_byteLength text
  exact line_after_of_count (by omega)

theorem column_after {text : List Char} (h : byteLength text < 2 ^ 32) :
    (after text).column.toNat = unitLength (lastLine text) := by
  have hunits := Text.unitLength_le_byteLength (lastLine text)
  have hlast := byteLength_lastLine_le text
  have hfits : unitLength (lastLine text) < UInt32.size := by
    change _ < 2 ^ 32
    omega
  exact UInt32.toNat_ofNat_of_lt' hfits

def Before (first second : Position) : Prop :=
  first.line < second.line ∨ (first.line = second.line ∧ first.column < second.column)

theorem Before.irrefl (position : Position) : ¬ position.Before position := by
  rintro (h | ⟨-, h⟩)
  · exact UInt32.lt_irrefl _ h
  · exact UInt32.lt_irrefl _ h

theorem Before.column_le {first second : Position} (h : first.Before second)
    (hline : first.line = second.line) : first.column ≤ second.column := by
  rcases h with hlt | ⟨-, hlt⟩
  · exact absurd (hline ▸ hlt) (UInt32.lt_irrefl _)
  · exact UInt32.le_of_lt hlt

theorem Before.not_column_le {first second : Position} (h : first.Before second)
    (hline : second.line = first.line) : ¬ second.column ≤ first.column := by
  rcases h with hlt | ⟨-, hlt⟩
  · exact absurd (hline ▸ hlt) (UInt32.lt_irrefl _)
  · exact UInt32.not_le.mpr hlt

theorem after_before_append {before text : List Char} (htext : text ≠ [])
    (h : byteLength (before ++ text) + 1 < 2 ^ 32) :
    (after before).Before (after (before ++ text)) := by
  have hlength := Text.byteLength_append before text
  have hbefore : byteLength before + 1 < 2 ^ 32 := by omega
  by_cases hmem : '\n' ∈ text
  · left
    rw [UInt32.lt_iff_toNat_lt, line_after hbefore, line_after h, List.count_append]
    have hcount := List.count_pos_iff.mpr hmem
    omega
  · right
    have hcount := List.count_eq_zero_of_not_mem hmem
    constructor
    · rw [← UInt32.toNat_inj, line_after hbefore, line_after h, List.count_append,
        hcount, Nat.add_zero]
    · rw [UInt32.lt_iff_toNat_lt, column_after (by omega), column_after (by omega),
        lastLine_append, if_neg hmem, Text.unitLength_append]
      obtain ⟨c, rest, rfl⟩ := List.exists_cons_of_ne_nil htext
      have hpos := Text.unitSize_pos c
      rw [Text.unitLength_cons]
      omega

theorem ofOffset?_eq_some_iff {text : String} {offset : Nat} {position : Position} :
    ofOffset? text offset = some position ↔
      ∃ before later, text.toList = before ++ later ∧ byteLength before = offset ∧
        position = after before := by
  rw [ofOffset?, Option.map_eq_some_iff]
  constructor
  · rintro ⟨⟨before, later⟩, hcut, rfl⟩
    obtain ⟨htext, hoffset⟩ := Text.cut?_eq_some_iff.mp hcut
    exact ⟨before, later, htext, hoffset, rfl⟩
  · rintro ⟨before, later, htext, hoffset, rfl⟩
    exact ⟨(before, later), Text.cut?_eq_some_iff.mpr ⟨htext, hoffset⟩, rfl⟩

/-- What is written later leaves the positions of a text as they are. -/
theorem ofOffset?_append {text : String} {offset : Nat} {position : Position}
    (h : ofOffset? text offset = some position) (later : String) :
    ofOffset? (text ++ later) offset = some position := by
  obtain ⟨before, after, htext, hoffset, hposition⟩ := ofOffset?_eq_some_iff.mp h
  refine ofOffset?_eq_some_iff.mpr ⟨before, after ++ later.toList, ?_, hoffset, hposition⟩
  rw [String.toList_append, htext, List.append_assoc]

theorem before_of_ofOffset? {text : String} {first second : Nat} {start stop : Position}
    (hfirst : ofOffset? text first = some start) (hsecond : ofOffset? text second = some stop)
    (hlt : first < second) (hsize : second + 1 < 2 ^ 32) : start.Before stop := by
  obtain ⟨before, rest, htext, rfl, rfl⟩ := ofOffset?_eq_some_iff.mp hfirst
  obtain ⟨longer, later, hlonger, rfl, rfl⟩ := ofOffset?_eq_some_iff.mp hsecond
  rw [htext, List.append_eq_append_iff] at hlonger
  rcases hlonger with ⟨between, rfl, -⟩ | ⟨between, rfl, -⟩
  · apply after_before_append _ hsize
    rintro rfl
    simp at hlt
  · rw [Text.byteLength_append] at hlt
    omega

theorem line_after_ne_zero {text : List Char} (h : byteLength text + 1 < 2 ^ 32) :
    (after text).line ≠ 0 := by
  intro hzero
  have hline := line_after h
  rw [hzero] at hline
  simp at hline

end StyleSplit.Position

namespace StyleSplit.Cursor

def atEnd (text : String) : Cursor :=
  ⟨text.utf8ByteSize, .after text.toList⟩

theorem advance_atEnd (text chunk : String) :
    (atEnd text).advance chunk = atEnd (text ++ chunk) := by
  rw [advance, atEnd, atEnd, String.utf8ByteSize_append, String.toList_append,
    Position.after_append]

theorem positionWithin?_atEnd (text later : String) (relative : Nat) :
    (atEnd text).positionWithin? later relative =
      Position.ofOffset? (text ++ later) (text.utf8ByteSize + relative) := by
  rw [positionWithin?, Position.ofOffset?, String.toList_append, ← Text.byteLength_toList,
    Text.cut?_append, Option.map_map]
  congr 1
  funext cut
  exact (Position.after_append text.toList cut.1).symm

end StyleSplit.Cursor
