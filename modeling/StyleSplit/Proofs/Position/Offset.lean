import StyleSplit.Proofs.Position.After
import StyleSplit.Proofs.Text.Split

/-! Offsets and positions stand for each other: the position of an offset leads back to
it, and a position that leads to no offset is that of none. The one exception is the end
of 2 ^ 32 - 1 line feeds. -/

namespace StyleSplit.Position

open Text (byteLength unitLength unitSize)

def IsLines (count : Nat) (text : List Char) : Prop :=
  text.count '\n' = count ∧ lastLine text = []

theorem isLines_zero_iff {text : List Char} : IsLines 0 text ↔ text = [] := by
  constructor
  · rintro ⟨hcount, hline⟩
    rwa [lastLine_of_not_mem (List.count_eq_zero.mp hcount)] at hline
  · rintro rfl
    exact ⟨rfl, rfl⟩

theorem isLines_succ_cons_iff {count : Nat} {c : Char} {text : List Char} :
    IsLines (count + 1) (c :: text) ↔
      IsLines (if c = '\n' then count else count + 1) text := by
  unfold IsLines
  by_cases hc : c = '\n'
  · rw [lastLine_cons (.inl hc), hc, List.count_cons_self, if_pos rfl, Nat.add_right_cancel_iff]
  · rw [List.count_cons_of_ne hc, if_neg hc]
    refine and_congr_right fun hcount => ?_
    rw [lastLine_cons (.inr (List.count_pos_iff.mp (by omega)))]

theorem exists_isLines (text : List Char) :
    ∃ lines, text = lines ++ lastLine text ∧ IsLines (text.count '\n') lines ∧
      '\n' ∉ lastLine text := by
  by_cases hmem : '\n' ∈ text
  · obtain ⟨before, line, rfl, hline⟩ := exists_lastLine hmem
    rw [lastLine_append_newline _ _ hline]
    refine ⟨before ++ ['\n'], by simp, ⟨?_, ?_⟩, hline⟩
    · simp [List.count_eq_zero_of_not_mem hline]
    · exact lastLine_append_newline before [] List.not_mem_nil
  · rw [lastLine_of_not_mem hmem]
    exact ⟨[], rfl, ⟨(List.count_eq_zero_of_not_mem hmem).symm, rfl⟩, hmem⟩

theorem dropLines?_eq_some_iff {count bytes : Nat} {text rest : List Char} :
    dropLines? count text = some (bytes, rest) ↔
      ∃ lines, text = lines ++ rest ∧ byteLength lines = bytes ∧ IsLines count lines := by
  fun_induction dropLines? count text generalizing bytes with
  | case1 text =>
      constructor
      · intro h
        cases h
        exact ⟨[], rfl, rfl, isLines_zero_iff.mpr rfl⟩
      · rintro ⟨lines, rfl, rfl, hlines⟩
        rw [isLines_zero_iff.mp hlines]
        rfl
  | case2 count =>
      constructor
      · intro h
        cases h
      · rintro ⟨lines, hnil, -, hcount, -⟩
        rw [(List.append_eq_nil_iff.mp hnil.symm).1] at hcount
        cases hcount
  | case3 count c text ih =>
      rw [Option.map_eq_some_iff]
      constructor
      · rintro ⟨⟨later, rest⟩, hrest, hpair⟩
        cases hpair
        obtain ⟨lines, rfl, rfl, hlines⟩ := ih.mp hrest
        exact ⟨c :: lines, rfl, rfl, isLines_succ_cons_iff.mpr hlines⟩
      · rintro ⟨lines, htext, rfl, hlines⟩
        cases lines with
        | nil => cases hlines.1
        | cons d lines =>
            obtain ⟨rfl, rfl⟩ := List.cons_eq_cons.mp htext
            exact ⟨_, ih.mpr ⟨lines, rfl, rfl, isLines_succ_cons_iff.mp hlines⟩, rfl⟩

theorem columnOffset?_eq_some_iff {column bytes : Nat} {text : List Char} :
    columnOffset? column text = some bytes ↔
      ∃ before after, text = before ++ after ∧ '\n' ∉ before ∧
        unitLength before = column ∧ byteLength before = bytes := by
  fun_induction columnOffset? column text generalizing bytes with
  | case1 text =>
      constructor
      · intro h
        cases h
        exact ⟨[], text, rfl, List.not_mem_nil, rfl, rfl⟩
      · rintro ⟨before, after, rfl, -, hunits, rfl⟩
        rw [Text.unitLength_eq_zero.mp hunits]
        rfl
  | case2 column =>
      constructor
      · intro h
        cases h
      · rintro ⟨before, after, hnil, -, hunits, -⟩
        rw [(List.append_eq_nil_iff.mp hnil.symm).1] at hunits
        cases hunits
  | case3 column text =>
      constructor
      · intro h
        cases h
      · rintro ⟨before, after, htext, hnot, hunits, -⟩
        cases before with
        | nil => cases hunits
        | cons d before =>
            rw [(List.cons_eq_cons.mp htext).1] at hnot
            exact absurd List.mem_cons_self hnot
  | case4 column c text hc hle ih =>
      rw [Option.map_eq_some_iff]
      constructor
      · rintro ⟨within, hrest, rfl⟩
        obtain ⟨before, after, rfl, hnot, hunits, rfl⟩ := ih.mp hrest
        refine ⟨c :: before, after, rfl, ?_, ?_, rfl⟩
        · rw [List.mem_cons, not_or]
          exact ⟨Ne.symm hc, hnot⟩
        · rw [Text.unitLength_cons]
          omega
      · rintro ⟨before, after, htext, hnot, hunits, rfl⟩
        cases before with
        | nil => cases hunits
        | cons d before =>
            obtain ⟨rfl, rfl⟩ := List.cons_eq_cons.mp htext
            rw [Text.unitLength_cons] at hunits
            refine ⟨_, ih.mpr ⟨before, after, rfl, ?_, by omega, rfl⟩, rfl⟩
            exact fun hmem => hnot (List.mem_cons_of_mem _ hmem)
  | case5 column c text hc hgt =>
      constructor
      · intro h
        cases h
      · rintro ⟨before, after, htext, hnot, hunits, -⟩
        cases before with
        | nil => cases hunits
        | cons d before =>
            obtain ⟨rfl, rfl⟩ := List.cons_eq_cons.mp htext
            rw [Text.unitLength_cons] at hunits
            omega

theorem line_eq_zero_iff {position : Position} :
    position.line = 0 ↔ position.line.toNat = 0 := by
  rw [← UInt32.toNat_inj]
  rfl

/-- A position leads to the offset before which its lines and its column are. -/
theorem toOffset?_eq_some_iff {text : String} {position : Position} {offset : Nat} :
    toOffset? text position = some offset ↔
      ∃ before later, text.toList = before ++ later ∧ byteLength before = offset ∧
        before.count '\n' + 1 = position.line.toNat ∧
        unitLength (lastLine before) = position.column.toNat := by
  rw [toOffset?]
  constructor
  · intro h
    split at h
    · cases h
    · rename_i hline
      rw [line_eq_zero_iff] at hline
      obtain ⟨⟨bytes, rest⟩, hdrop, hwithin⟩ := Option.bind_eq_some_iff.mp h
      obtain ⟨within, hcolumn, hoffset⟩ := Option.bind_eq_some_iff.mp hwithin
      cases hoffset
      obtain ⟨lines, htext, rfl, hcount, hlines⟩ := dropLines?_eq_some_iff.mp hdrop
      obtain ⟨before, after, rfl, hnot, hunits, rfl⟩ := columnOffset?_eq_some_iff.mp hcolumn
      refine ⟨lines ++ before, after, by rw [htext, List.append_assoc],
        Text.byteLength_append .., ?_, ?_⟩
      · rw [List.count_append, List.count_eq_zero_of_not_mem hnot]
        omega
      · rw [lastLine_append, if_neg hnot, hlines, List.nil_append, hunits]
  · rintro ⟨before, later, htext, rfl, hline, hcolumn⟩
    obtain ⟨lines, hbefore, hlines, hnot⟩ := exists_isLines before
    rw [if_neg (by rw [line_eq_zero_iff]; omega)]
    have hdrop : dropLines? (position.line.toNat - 1) text.toList =
        some (byteLength lines, lastLine before ++ later) := by
      refine dropLines?_eq_some_iff.mpr ⟨lines, ?_, rfl, ?_⟩
      · rw [htext, ← List.append_assoc, ← hbefore]
      · rwa [← hline, Nat.add_sub_cancel]
    have hwithin : columnOffset? position.column.toNat (lastLine before ++ later) =
        some (byteLength (lastLine before)) :=
      columnOffset?_eq_some_iff.mpr ⟨lastLine before, later, rfl, hnot, hcolumn, rfl⟩
    rw [hdrop]
    dsimp only [Option.bind_eq_bind, Option.bind_some]
    rw [hwithin]
    dsimp only [Option.bind_some]
    rw [← Text.byteLength_append, ← hbefore]

theorem ofOffset?_of_toOffset? {text : String} {position : Position} {offset : Nat}
    (h : toOffset? text position = some offset) : ofOffset? text offset = some position := by
  obtain ⟨before, later, htext, hoffset, hline, hcolumn⟩ := toOffset?_eq_some_iff.mp h
  refine ofOffset?_eq_some_iff.mpr ⟨before, later, htext, hoffset, ?_⟩
  rw [after, hline, hcolumn, UInt32.ofNat_toNat, UInt32.ofNat_toNat]

/-- The end of 2 ^ 32 - 1 line feeds is on line 2 ^ 32, a number that a position cannot
hold. No other offset of a text under 2 ^ 32 bytes is. -/
def Unnumbered (text : String) (offset : Nat) : Prop :=
  text.toList = List.replicate (2 ^ 32 - 1) '\n' ∧ offset = 2 ^ 32 - 1

theorem toOffset?_of_ofOffset? {text : String} {position : Position} {offset : Nat}
    (hsize : text.utf8ByteSize < 2 ^ 32) (h : ofOffset? text offset = some position) :
    toOffset? text position = some offset ∨ Unnumbered text offset := by
  obtain ⟨before, later, htext, rfl, rfl⟩ := ofOffset?_eq_some_iff.mp h
  have hlength := congrArg byteLength htext
  rw [Text.byteLength_toList, Text.byteLength_append] at hlength
  by_cases hcount : before.count '\n' + 1 < 2 ^ 32
  · left
    refine toOffset?_eq_some_iff.mpr ⟨before, later, htext, rfl, ?_, ?_⟩
    · exact (line_after_of_count hcount).symm
    · exact (column_after (by omega)).symm
  · right
    have hle := Text.count_newline_le_byteLength before
    have hbytes : byteLength before = 2 ^ 32 - 1 := by omega
    have hnil : later = [] := Text.byteLength_eq_zero.mp (by omega)
    refine ⟨?_, hbytes⟩
    rw [htext, hnil, List.append_nil, ← hbytes]
    exact Text.eq_replicate_of_byteLength_le (by omega)

theorem not_unnumbered_of_toOffset? {text : String} {position : Position} {offset : Nat}
    (h : toOffset? text position = some offset) : ¬ Unnumbered text offset := by
  rintro ⟨hfeeds, hoffset⟩
  obtain ⟨before, later, htext, rfl, hline, -⟩ := toOffset?_eq_some_iff.mp h
  have hbefore : before = List.replicate before.length '\n' := by
    rw [List.eq_replicate_iff]
    refine ⟨rfl, fun c hc => ?_⟩
    have hmem : c ∈ text.toList := htext ▸ List.mem_append_left later hc
    rw [hfeeds] at hmem
    exact List.eq_of_mem_replicate hmem
  have hbound := position.line.toNat_lt
  rw [hbefore, Text.byteLength_replicate_newline] at hoffset
  rw [hbefore, List.count_replicate_self, hoffset] at hline
  omega

theorem after_replicate_newline (count : Nat) :
    after (List.replicate count '\n') = ⟨.ofNat (count + 1), 0⟩ := by
  have hline : lastLine (List.replicate count '\n') = [] := by
    cases count with
    | zero => rfl
    | succ count =>
        rw [List.replicate_succ']
        exact lastLine_append_newline _ [] List.not_mem_nil
  rw [after, hline, List.count_replicate_self]
  rfl

theorem ofOffset?_replicate_newline (count : Nat) :
    ofOffset? (.ofList (List.replicate count '\n')) count = some ⟨.ofNat (count + 1), 0⟩ :=
  ofOffset?_eq_some_iff.mpr ⟨List.replicate count '\n', [], by simp,
    Text.byteLength_replicate_newline count, (after_replicate_newline count).symm⟩

/-- Between the two halves of a surrogate pair. -/
def SplitsPair (column : Nat) (line : List Char) : Prop :=
  ∃ before c after, line = before ++ c :: after ∧ unitSize c = 2 ∧
    column = unitLength before + 1

theorem splitsPair_cons_iff {column : Nat} {c : Char} {line : List Char} :
    SplitsPair column (c :: line) ↔
      unitSize c = 2 ∧ column = 1 ∨
        unitSize c ≤ column ∧ SplitsPair (column - unitSize c) line := by
  constructor
  · rintro ⟨before, d, after, hline, hpair, rfl⟩
    cases before with
    | nil =>
        obtain ⟨rfl, rfl⟩ := List.cons_eq_cons.mp hline
        exact .inl ⟨hpair, rfl⟩
    | cons first before =>
        obtain ⟨rfl, rfl⟩ := List.cons_eq_cons.mp hline
        rw [Text.unitLength_cons]
        exact .inr ⟨by omega, before, d, after, rfl, hpair, by omega⟩
  · rintro (⟨hpair, rfl⟩ | ⟨hle, before, d, after, rfl, hpair, hcolumn⟩)
    · exact ⟨[], c, line, rfl, hpair, rfl⟩
    · refine ⟨c :: before, d, after, rfl, hpair, ?_⟩
      rw [Text.unitLength_cons]
      omega

theorem columnOffset?_eq_none_iff {column : Nat} {line : List Char} (hline : '\n' ∉ line) :
    columnOffset? column line = none ↔
      unitLength line < column ∨ SplitsPair column line := by
  fun_induction columnOffset? column line with
  | case1 line =>
      constructor
      · intro h
        cases h
      · rintro (h | ⟨before, c, after, -, -, h⟩)
        · cases h
        · cases h
  | case2 column => simp
  | case3 column line => exact absurd List.mem_cons_self hline
  | case4 column c line hc hle ih =>
      rw [Option.map_eq_none_iff, ih fun hmem => hline (List.mem_cons_of_mem _ hmem),
        Text.unitLength_cons, splitsPair_cons_iff]
      have hlength : unitLength line < column + 1 - unitSize c ↔
          unitSize c + unitLength line < column + 1 := by omega
      have hpair : ¬ (unitSize c = 2 ∧ column + 1 = 1) := by omega
      rw [hlength, or_iff_right hpair, and_iff_right hle]
  | case5 column c line hc hgt =>
      have hle := Text.unitSize_le_two c
      refine iff_of_true rfl (.inr (splitsPair_cons_iff.mpr (.inl ?_)))
      omega

theorem columnOffset?_takeWhile (column : Nat) (text : List Char) :
    columnOffset? column (text.takeWhile (· ≠ '\n')) = columnOffset? column text := by
  fun_induction columnOffset? column text with
  | case1 text => rw [columnOffset?]
  | case2 column => rfl
  | case3 column text => simp [columnOffset?]
  | case4 column c text hc hle ih =>
      rw [List.takeWhile_cons_of_pos (by simpa using hc), columnOffset?, if_neg hc, if_pos hle, ih]
  | case5 column c text hc hgt =>
      rw [List.takeWhile_cons_of_pos (by simpa using hc), columnOffset?, if_neg hc, if_neg hgt]

theorem getElem?_splitOn (count : Nat) (text : List Char) :
    (Text.splitOn '\n' text)[count]? =
      (dropLines? count text).map fun dropped => dropped.2.takeWhile (· ≠ '\n') := by
  fun_induction dropLines? count text with
  | case1 text => exact Text.getElem?_zero_splitOn '\n' text
  | case2 count => rfl
  | case3 count c text ih =>
      obtain ⟨part, parts, hparts⟩ := Text.exists_splitOn '\n' text
      rw [Option.map_map]
      refine Eq.trans ?_ ih
      rw [Text.splitOn, hparts]
      by_cases hc : c = '\n' <;> simp [hc]

theorem toOffset?_eq_none_iff {text : String} {position : Position} :
    toOffset? text position = none ↔
      position.line = 0 ∨ (Text.splitOn '\n' text.toList).length < position.line.toNat ∨
        ∃ line, (Text.splitOn '\n' text.toList)[position.line.toNat - 1]? = some line ∧
          (unitLength line < position.column.toNat ∨
            SplitsPair position.column.toNat line) := by
  rw [toOffset?]
  by_cases hline : position.line = 0
  · rw [if_pos hline]
    exact iff_of_true rfl (.inl hline)
  · rw [if_neg hline, or_iff_right hline]
    rw [line_eq_zero_iff] at hline
    have hpast : (Text.splitOn '\n' text.toList).length < position.line.toNat ↔
        (Text.splitOn '\n' text.toList)[position.line.toNat - 1]? = none := by
      rw [List.getElem?_eq_none_iff]
      omega
    rw [hpast, getElem?_splitOn]
    cases dropLines? (position.line.toNat - 1) text.toList with
    | none => simp
    | some dropped =>
        obtain ⟨bytes, rest⟩ := dropped
        have hnot : '\n' ∉ rest.takeWhile (· ≠ '\n') := fun hmem => by
          simpa using List.mem_takeWhile_imp hmem
        have hcolumn := @columnOffset?_eq_none_iff position.column.toNat _ hnot
        rw [columnOffset?_takeWhile] at hcolumn
        simp only [Option.map_some, reduceCtorEq, false_or, Option.some.injEq, exists_eq_left']
        rw [← hcolumn]
        change (columnOffset? position.column.toNat rest).bind _ = none ↔ _
        cases columnOffset? position.column.toNat rest <;> simp

/-- In a text under 2 ^ 32 bytes each offset that is not inside a character has a position,
and that leads back to it; a position that leads to an offset is the position of that
offset. The positions that lead nowhere are those of no offset: on line zero, past the last
line, past the end of their line or between the halves of a surrogate pair. Only the line
of the end of 2 ^ 32 - 1 line feeds has no number. -/
theorem toOffset?_inverse {text : String} (hsize : text.utf8ByteSize < 2 ^ 32) :
    (∀ offset, Text.isBoundary text offset = true →
      ∃ position, ofOffset? text offset = some position ∧
        (toOffset? text position = some offset ↔ ¬ Unnumbered text offset)) ∧
    (∀ position offset, toOffset? text position = some offset →
      ofOffset? text offset = some position) ∧
    ∀ position,
      (toOffset? text position = none ↔
        ∀ offset, ofOffset? text offset = some position → Unnumbered text offset) ∧
      (toOffset? text position = none ↔
        position.line = 0 ∨ (Text.splitOn '\n' text.toList).length < position.line.toNat ∨
          ∃ line, (Text.splitOn '\n' text.toList)[position.line.toNat - 1]? = some line ∧
            (unitLength line < position.column.toNat ∨
              SplitsPair position.column.toNat line)) := by
  refine ⟨?_, fun position offset h => ofOffset?_of_toOffset? h,
    fun position => ⟨⟨?_, ?_⟩, toOffset?_eq_none_iff⟩⟩
  · intro offset hboundary
    rw [Text.isBoundary_eq_isSome_cut?] at hboundary
    obtain ⟨before, after, htext, hoffset⟩ := Text.isSome_cut?_iff.mp hboundary
    have hposition := ofOffset?_eq_some_iff.mpr ⟨before, after, htext, hoffset, rfl⟩
    exact ⟨_, hposition, not_unnumbered_of_toOffset?,
      (toOffset?_of_ofOffset? hsize hposition).resolve_right⟩
  · intro hnone offset hoffset
    apply (toOffset?_of_ofOffset? hsize hoffset).resolve_left
    simp [hnone]
  · intro hnumbered
    rw [Option.eq_none_iff_forall_ne_some]
    intro offset hoffset
    exact not_unnumbered_of_toOffset? hoffset (hnumbered offset (ofOffset?_of_toOffset? hoffset))

theorem toOffset?_inverse_pair :
    let text := "é😀\n\nb"
    text.utf8ByteSize < 2 ^ 32 ∧
      (Text.isBoundary text 6 = true ∧ ofOffset? text 6 = some ⟨1, 3⟩ ∧
        toOffset? text ⟨1, 3⟩ = some 6) ∧
      toOffset? text ⟨0, 0⟩ = none ∧ toOffset? text ⟨4, 0⟩ = none ∧
      toOffset? text ⟨2, 1⟩ = none ∧ toOffset? text ⟨1, 2⟩ = none := by
  intro text
  have hsize : text.utf8ByteSize < 2 ^ 32 := by decide
  have hboundary : Text.isBoundary text 6 = true := by decide
  obtain ⟨hforth, -, hnone⟩ := toOffset?_inverse hsize
  have hoffset : toOffset? text ⟨1, 3⟩ = some 6 := by
    obtain ⟨position, hposition, hback⟩ := hforth 6 hboundary
    obtain rfl : ⟨1, 3⟩ = position := Option.some.inj ((by decide : _ = _).trans hposition)
    exact hback.mpr fun h => absurd h.2 (by decide)
  refine ⟨hsize, ⟨hboundary, by decide, hoffset⟩, (hnone _).2.mpr (.inl rfl),
    (hnone _).2.mpr (.inr (.inl (by decide))), ?_, ?_⟩
  · exact (hnone _).2.mpr (.inr (.inr ⟨[], by decide, .inl (by decide)⟩))
  · refine (hnone _).2.mpr (.inr (.inr ⟨['é', '😀'], by decide, .inr ?_⟩))
    exact ⟨['é'], '😀', [], rfl, by decide, by decide⟩

/-- The end of this text is on line 2 ^ 32, stored as line zero, which leads nowhere. -/
theorem not_inverse_of_lineFeeds :
    let text := String.ofList (List.replicate (2 ^ 32 - 1) '\n')
    text.utf8ByteSize < 2 ^ 32 ∧ Text.isBoundary text (2 ^ 32 - 1) = true ∧
      ofOffset? text (2 ^ 32 - 1) = some ⟨0, 0⟩ ∧ toOffset? text ⟨0, 0⟩ = none := by
  intro text
  have hbytes : byteLength text.toList = 2 ^ 32 - 1 := by
    rw [String.toList_ofList, Text.byteLength_replicate_newline]
  refine ⟨?_, ?_, ofOffset?_replicate_newline _, toOffset?_eq_none_iff.mpr (.inl rfl)⟩
  · rw [← Text.byteLength_toList, hbytes]
    decide
  · rw [Text.isBoundary_eq_isSome_cut?]
    exact Text.isSome_cut?_iff.mpr ⟨text.toList, [], (List.append_nil _).symm, hbytes⟩

end StyleSplit.Position
