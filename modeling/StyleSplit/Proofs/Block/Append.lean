import StyleSplit.Block
import StyleSplit.Proofs.Position.After
import StyleSplit.Stylesheet.Rule

/-! What a block is after texts were appended to it: the texts one after the
other, a cursor at their end, and the mappings of all of them. -/

namespace StyleSplit

theorem eraseDups_concat (names : List String) (name : String) :
    (names ++ [name]).eraseDups =
      if name ∈ names then names.eraseDups else names.eraseDups ++ [name] := by
  rw [List.eraseDups_append]
  split
  · rename_i hmem
    simp [List.removeAll, hmem]
  · rename_i hnew
    simp [List.removeAll, hnew, List.eraseDups_cons]

theorem nodup_eraseDups (names : List String) : names.eraseDups.Nodup := by
  induction names using List.reverseRecOn with
  | nil => exact List.nodup_nil
  | append_singleton names name ih =>
      rw [eraseDups_concat]
      split
      · exact ih
      · rename_i hnew
        rw [List.nodup_append]
        refine ⟨ih, List.nodup_singleton name, ?_⟩
        rintro other hother _ hname rfl
        rw [List.mem_singleton.mp hname] at hother
        exact hnew (List.mem_eraseDups.mp hother)

/-- A block as it was made, before anything was appended to it. -/
def Block.blank (block : Block) : Block :=
  { block with text := "", cursor := {}, mappings := #[], sources := #[] }

/-- A text to be appended to a block, and where some offsets in it come from. -/
structure Piece where
  text : String
  origins : List (Nat × SourcePosition)

def Block.appendAll (block : Block) (pieces : List Piece) : Block :=
  pieces.foldl (fun block piece => block.append piece.text piece.origins) block

def Block.appendRules (block : Block) (text : String)
    (origins : Rule → List (Nat × SourcePosition)) (rules : List Rule) : Block :=
  rules.foldl (fun block rule => block.append (rule.text text) (origins rule)) block

namespace Block

theorem blank_record (block : Block) (text : String) (offset : Nat)
    (origin : SourcePosition) : (block.record text offset origin).blank = block.blank := by
  unfold record
  split <;> rfl

theorem blank_append (block : Block) (text : String) (origins : List (Nat × SourcePosition)) :
    (block.append text origins).blank = block.blank := by
  have hfold : ∀ block : Block, (origins.foldl (fun block origin =>
      block.record text origin.1 origin.2) block).blank = block.blank := by
    induction origins with
    | nil => exact fun _ => rfl
    | cons origin origins ih =>
        intro block
        rw [List.foldl_cons, ih, blank_record]
  exact hfold block

theorem appendRules_concat (block : Block) (text : String)
    (origins : Rule → List (Nat × SourcePosition)) (rules : List Rule) (rule : Rule) :
    block.appendRules text origins (rules ++ [rule]) =
      (block.appendRules text origins rules).append (rule.text text) (origins rule) :=
  List.foldl_concat ..

theorem blank_appendRules (block : Block) (text : String)
    (origins : Rule → List (Nat × SourcePosition)) (rules : List Rule) :
    (block.appendRules text origins rules).blank = block.blank := by
  induction rules using List.reverseRecOn with
  | nil => rfl
  | append_singleton rules rule ih => rw [appendRules_concat, blank_append, ih]

theorem label_append (block : Block) (text : String) (origins : List (Nat × SourcePosition)) :
    ((block.append text origins).identity, (block.append text origins).isDocument) =
      (block.identity, block.isDocument) :=
  congrArg (fun block => (block.identity, block.isDocument)) (blank_append block text origins)

@[simp] theorem text_record (block : Block) (text : String) (offset : Nat)
    (origin : SourcePosition) : (block.record text offset origin).text = block.text := by
  unfold record
  split <;> rfl

@[simp] theorem cursor_record (block : Block) (text : String) (offset : Nat)
    (origin : SourcePosition) : (block.record text offset origin).cursor = block.cursor := by
  unfold record
  split <;> rfl

theorem mappings_record (block : Block) (text : String) (offset : Nat)
    (origin : SourcePosition) :
    (block.record text offset origin).mappings.toList =
      block.mappings.toList ++
        ((block.cursor.positionWithin? text offset).map (⟨·, origin⟩)).toList := by
  unfold record
  cases block.cursor.positionWithin? text offset with
  | none => simp
  | some generated => simp

theorem foldl_record (block : Block) (text : String)
    (origins : List (Nat × SourcePosition)) :
    let recorded := origins.foldl (fun block origin =>
      block.record text origin.1 origin.2) block
    recorded.text = block.text ∧ recorded.cursor = block.cursor ∧
      recorded.mappings.toList = block.mappings.toList ++
        origins.filterMap fun origin =>
          (block.cursor.positionWithin? text origin.1).map (⟨·, origin.2⟩) := by
  induction origins generalizing block with
  | nil => simp
  | cons origin origins ih =>
      obtain ⟨htext, hcursor, hmappings⟩ := ih (block.record text origin.1 origin.2)
      refine ⟨?_, ?_, ?_⟩
      · rw [List.foldl_cons, htext, text_record]
      · rw [List.foldl_cons, hcursor, cursor_record]
      · rw [List.foldl_cons, hmappings, mappings_record, cursor_record]
        cases hposition : block.cursor.positionWithin? text origin.1 <;> simp [hposition]

@[simp] theorem text_append (block : Block) (text : String)
    (origins : List (Nat × SourcePosition)) :
    (block.append text origins).text = block.text ++ text := by
  rw [append, (foldl_record block text origins).1]

@[simp] theorem cursor_append (block : Block) (text : String)
    (origins : List (Nat × SourcePosition)) :
    (block.append text origins).cursor = block.cursor.advance text := by
  rw [append, (foldl_record block text origins).2.1]

theorem mappings_append (block : Block) (text : String)
    (origins : List (Nat × SourcePosition)) :
    (block.append text origins).mappings.toList = block.mappings.toList ++
      origins.filterMap fun origin =>
        (block.cursor.positionWithin? text origin.1).map (⟨·, origin.2⟩) :=
  (foldl_record block text origins).2.2

theorem text_appendAll (block : Block) (pieces : List Piece) :
    (block.appendAll pieces).text = block.text ++ String.join (pieces.map (·.text)) := by
  induction pieces generalizing block with
  | nil => simp [appendAll]
  | cons piece pieces ih =>
      refine (ih (block.append piece.text piece.origins)).trans ?_
      rw [text_append, List.map_cons, String.join_cons, String.append_assoc]

theorem text_appendRules (block : Block) (text : String)
    (origins : Rule → List (Nat × SourcePosition)) (rules : List Rule) :
    (block.appendRules text origins rules).text =
      block.text ++ String.join (rules.map (·.text text)) := by
  have hpieces : block.appendRules text origins rules =
      block.appendAll (rules.map fun rule => ⟨rule.text text, origins rule⟩) := by
    rw [appendAll, List.foldl_map]
    rfl
  rw [hpieces, text_appendAll, List.map_map]
  rfl

def AtEnd (block : Block) : Prop :=
  block.cursor = ⟨block.text.utf8ByteSize, .after block.text.toList⟩

theorem atEnd_blank (block : Block) : block.blank.AtEnd := rfl

theorem AtEnd.append {block : Block} (h : block.AtEnd) (text : String)
    (origins : List (Nat × SourcePosition)) : (block.append text origins).AtEnd := by
  rw [AtEnd, cursor_append, text_append, h]
  exact Cursor.advance_atEnd block.text text

theorem AtEnd.positionWithin? {block : Block} (h : block.AtEnd) (text : String)
    (offset : Nat) :
    block.cursor.positionWithin? text offset =
      Position.ofOffset? (block.text ++ text) (block.text.utf8ByteSize + offset) := by
  rw [h]
  exact Cursor.positionWithin?_atEnd block.text text offset

end Block

end StyleSplit
