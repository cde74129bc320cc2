import StyleSplit.Proofs.Block.Append

/-! Positions that are counted while a text grows are those of a scan of the whole text. So
a block has the positions and the sources of all that was ever appended to it. -/

namespace StyleSplit

namespace Cursor

theorem foldl_advance (text : String) (chunks : List String) :
    chunks.foldl advance (atEnd text) = atEnd (text ++ String.join chunks) := by
  induction chunks generalizing text with
  | nil => simp
  | cons chunk chunks ih =>
      rw [List.foldl_cons, advance_atEnd, ih, String.join_cons, String.append_assoc]

theorem ofOffset?_atEnd (text : String) :
    Position.ofOffset? text text.utf8ByteSize = some (atEnd text).position := by
  refine Position.ofOffset?_eq_some_iff.mpr ⟨text.toList, [], by simp, ?_, rfl⟩
  exact Text.byteLength_toList text

theorem isSome_positionWithin? (cursor : Cursor) (later : String) (relative : Nat) :
    (cursor.positionWithin? later relative).isSome = Text.isBoundary later relative := by
  rw [positionWithin?, Option.isSome_map, Text.isBoundary_eq_isSome_cut?]

end Cursor

namespace Piece

/-- The origins of a piece that is written at byte `start`, by the bytes that they are
about. Those at no offset of the piece are left out. -/
def placed (start : Nat) (piece : Piece) : List (Nat × SourcePosition) :=
  (piece.origins.filter (Text.isBoundary piece.text ·.1)).map fun (offset, origin) =>
    (start + offset, origin)

def placedAll (start : Nat) : List Piece → List (Nat × SourcePosition)
  | [] => []
  | piece :: pieces =>
      piece.placed start ++ placedAll (start + piece.text.utf8ByteSize) pieces

end Piece

def Mapping.IsAt (text : String) (mapping : Mapping) (entry : Nat × SourcePosition) : Prop :=
  Position.ofOffset? text entry.1 = some mapping.generated ∧ mapping.origin = entry.2

theorem Mapping.IsAt.append {text : String} {mapping : Mapping} {entry : Nat × SourcePosition}
    (h : mapping.IsAt text entry) (later : String) : mapping.IsAt (text ++ later) entry :=
  ⟨Position.ofOffset?_append h.1 later, h.2⟩

namespace Block

/-- The sources are those of the mappings, in the order of their first use. -/
def Listed (block : Block) : Prop :=
  block.sources.toList = (block.mappings.toList.map (·.origin.source)).eraseDups

variable {block : Block} {entries : List (Nat × SourcePosition)}

theorem Listed.record (h : block.Listed) (text : String) (offset : Nat)
    (origin : SourcePosition) : (block.record text offset origin).Listed := by
  unfold Block.record
  cases block.cursor.positionWithin? text offset with
  | none => exact h
  | some generated =>
      have hmem : block.sources.contains origin.source = true ↔
          origin.source ∈ block.mappings.toList.map (·.origin.source) := by
        rw [Array.contains_iff_mem, ← Array.mem_toList_iff, h, List.mem_eraseDups]
      unfold Listed
      dsimp only
      rw [Array.toList_push, List.map_append, List.map_singleton, eraseDups_concat, ← h]
      simp only [hmem]
      split
      · rfl
      · rw [Array.toList_push]

theorem Listed.append (h : block.Listed) (text : String)
    (origins : List (Nat × SourcePosition)) : (block.append text origins).Listed := by
  have hfold : (origins.foldl (fun block origin =>
      block.record text origin.1 origin.2) block).Listed := by
    induction origins generalizing block with
    | nil => exact h
    | cons origin origins ih => exact ih (h.record text origin.1 origin.2)
  exact hfold

/-- What a block holds when it was given these origins, each at a byte of its text. -/
structure Records (block : Block) (entries : List (Nat × SourcePosition)) : Prop where
  atEnd : block.AtEnd
  mappings : List.Forall₂ (Mapping.IsAt block.text) block.mappings.toList entries
  listed : block.Listed

theorem records_blank (block : Block) : block.blank.Records [] :=
  ⟨block.atEnd_blank, .nil, rfl⟩

theorem AtEnd.forall₂_placed (h : block.AtEnd) (text : String)
    (origins : List (Nat × SourcePosition)) :
    List.Forall₂ (Mapping.IsAt (block.text ++ text))
      (origins.filterMap fun origin =>
        (block.cursor.positionWithin? text origin.1).map (⟨·, origin.2⟩))
      (Piece.placed block.text.utf8ByteSize ⟨text, origins⟩) := by
  induction origins with
  | nil => exact .nil
  | cons origin origins ih =>
      have hboundary := block.cursor.isSome_positionWithin? text origin.1
      rw [Piece.placed, List.filter_cons, ← hboundary, List.filterMap_cons]
      cases hposition : block.cursor.positionWithin? text origin.1 with
      | none => exact ih
      | some generated =>
          rw [h.positionWithin?] at hposition
          exact .cons ⟨hposition, rfl⟩ ih

theorem Records.append (h : block.Records entries) (piece : Piece) :
    (block.append piece.text piece.origins).Records
      (entries ++ piece.placed block.text.utf8ByteSize) := by
  refine ⟨h.atEnd.append piece.text piece.origins, ?_, h.listed.append piece.text piece.origins⟩
  rw [text_append, mappings_append]
  apply List.rel_append
  · exact h.mappings.imp fun _ _ hat => hat.append piece.text
  · exact h.atEnd.forall₂_placed piece.text piece.origins

theorem Records.appendAll (h : block.Records entries) (pieces : List Piece) :
    (block.appendAll pieces).Records
      (entries ++ Piece.placedAll block.text.utf8ByteSize pieces) := by
  induction pieces generalizing block entries with
  | nil =>
      rw [Piece.placedAll, List.append_nil]
      exact h
  | cons piece pieces ih =>
      have hrest := ih (h.append piece)
      rw [text_append, String.utf8ByteSize_append, List.append_assoc] at hrest
      exact hrest

/-- A cursor that is moved past texts gives the positions that a scan of all of them gives,
and those in a text that is yet to be written. So after any texts were appended to it with
any origins, the end of a block is the end of its text, its mappings are the origins at
offsets of their texts, each at its byte of the whole text, and its sources are those of
its mappings. -/
theorem appendAll_eq_rescan (chunks : List String) (block : Block) (pieces : List Piece) :
    (let text := String.join chunks
     let cursor := chunks.foldl Cursor.advance {}
     cursor.offset = text.utf8ByteSize ∧
     some cursor.position = Position.ofOffset? text text.utf8ByteSize ∧
     ∀ later relative, cursor.positionWithin? later relative =
       if Text.isBoundary later relative then
         Position.ofOffset? (text ++ later) (text.utf8ByteSize + relative)
       else none) ∧
    let final := block.blank.appendAll pieces
    final.text = String.join (pieces.map (·.text)) ∧
    some final.endPosition = Position.ofOffset? final.text final.text.utf8ByteSize ∧
    List.Forall₂ (Mapping.IsAt final.text) final.mappings.toList (Piece.placedAll 0 pieces) ∧
    final.sources.toList = (final.mappings.toList.map (·.origin.source)).eraseDups ∧
    final.sources.toList.Nodup := by
  constructor
  · have hcursor : chunks.foldl Cursor.advance {} = .atEnd (String.join chunks) := by
      have hfold := Cursor.foldl_advance "" chunks
      rwa [String.empty_append] at hfold
    rw [hcursor]
    refine ⟨rfl, (Cursor.ofOffset?_atEnd _).symm, fun later relative => ?_⟩
    rw [← Cursor.isSome_positionWithin? (.atEnd (String.join chunks)),
      ← Cursor.positionWithin?_atEnd]
    cases (Cursor.atEnd (String.join chunks)).positionWithin? later relative <;> rfl
  · obtain ⟨hend, hmappings, hlisted⟩ := block.records_blank.appendAll pieces
    refine ⟨?_, ?_, hmappings, hlisted, ?_⟩
    · rw [text_appendAll]
      exact String.empty_append
    · rw [endPosition, hend]
      exact (Cursor.ofOffset?_atEnd _).symm
    · rw [hlisted]
      exact nodup_eraseDups _

end Block

end StyleSplit
