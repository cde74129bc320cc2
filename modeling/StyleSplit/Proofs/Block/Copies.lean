import StyleSplit.Proofs.Block.Append
import StyleSplit.Proofs.Position.LineIndex
import StyleSplit.Proofs.Stylesheet.Parts
import StyleSplit.Routing

/-! The copies of rules that a block is made of, part by part, and the mappings
that they leave. -/

namespace StyleSplit

open Text (byteLength)

/-- A part of a rule, and the byte at which its copy starts. -/
structure Copy where
  offset : Nat
  part : Rule

def Rule.copies (rule : Rule) (offset : Nat) : List Copy :=
  rule.parts.map fun part => ⟨offset + (part.span.start - rule.span.start), part⟩

def SourceMap.origin? (map : SourceMap) (source : String) (part : Rule) :
    Option SourcePosition :=
  (Position.ofOffset? source part.span.start).bind map.sourcePosition?

namespace Copy

def ofRules (source : String) (offset : Nat) : List Rule → List Copy
  | [] => []
  | rule :: rules =>
      rule.copies offset ++ ofRules source (offset + (rule.text source).utf8ByteSize) rules

/-- The mapping that a copy in `text` has, if `map` knows its origin. -/
def mapping? (map : SourceMap) (source text : String) (copy : Copy) : Option Mapping := do
  let origin ← map.origin? source copy.part
  let generated ← Position.ofOffset? text copy.offset
  some ⟨generated, origin⟩

/-- The text that the part has in `source` is found in `text` where the copy
starts. -/
def Stands (copy : Copy) (source text : String) : Prop :=
  ∃ before within after, text.toList = before ++ (within ++ after) ∧ within ≠ [] ∧
    byteLength before = copy.offset ∧ copy.part.span.text? source = some (.ofList within)

def Before (text : String) (first second : Copy) : Prop :=
  ∀ start, Position.ofOffset? text first.offset = some start →
    ∀ stop, Position.ofOffset? text second.offset = some stop → start.Before stop

variable {copy : Copy} {source text : String}

theorem Stands.exists_piece (h : copy.Stands source text) :
    ∃ piece, copy.part.span.text? source = some piece ∧
      Text.between? text copy.offset (copy.offset + piece.utf8ByteSize) = some piece := by
  obtain ⟨before, within, after, htext, -, hoffset, hsource⟩ := h
  refine ⟨.ofList within, hsource, ?_⟩
  rw [Text.between?_eq_some_iff]
  refine ⟨before, after, by rw [htext, String.toList_ofList], hoffset, ?_⟩
  rw [Text.byteLength_toList]

theorem Stands.exists_ofOffset? (h : copy.Stands source text) :
    ∃ generated, Position.ofOffset? text copy.offset = some generated := by
  obtain ⟨before, within, after, htext, -, hoffset, -⟩ := h
  exact ⟨_, Position.ofOffset?_eq_some_iff.mpr ⟨before, _, htext, hoffset, rfl⟩⟩

theorem Stands.ofOffset?_append (h : copy.Stands source text) (later : String) :
    Position.ofOffset? (text ++ later) copy.offset = Position.ofOffset? text copy.offset := by
  obtain ⟨generated, hgenerated⟩ := h.exists_ofOffset?
  rw [hgenerated, Position.ofOffset?_append hgenerated later]

theorem stands_of_mem_copies {rule : Rule} {before after : List Char}
    (hrule : rule.Stands source)
    (htext : text.toList = before ++ ((rule.text source).toList ++ after))
    (hcopy : copy ∈ rule.copies (byteLength before)) : copy.Stands source text := by
  obtain ⟨part, hpart, rfl⟩ := List.mem_map.mp hcopy
  obtain ⟨first, within, last, hwithin, hne, hsource, hstart⟩ := hrule.text?_part hpart
  refine ⟨before ++ first, within, last ++ after, ?_, hne, ?_, hsource⟩
  · rw [htext, hwithin]
    simp
  · rw [Text.byteLength_append, hstart, Nat.add_sub_cancel_left]

theorem stands_of_mem_ofRules {rules : List Rule} {before after : List Char}
    (hrules : ∀ rule ∈ rules, rule.Stands source)
    (htext : text.toList =
      before ++ ((String.join (rules.map (·.text source))).toList ++ after))
    (hcopy : copy ∈ ofRules source (byteLength before) rules) :
    copy.Stands source text := by
  induction rules generalizing before with
  | nil => simp [ofRules] at hcopy
  | cons rule rules ih =>
      obtain ⟨hrule, hrest⟩ := List.forall_mem_cons.mp hrules
      rw [List.map_cons, String.join_cons, String.toList_append] at htext
      rcases List.mem_append.mp hcopy with hfirst | hlater
      · apply stands_of_mem_copies hrule _ hfirst
        · exact (String.join (rules.map (·.text source))).toList ++ after
        · rw [htext, List.append_assoc]
      · have hall : text.toList = (before ++ (rule.text source).toList) ++
            ((String.join (rules.map (·.text source))).toList ++ after) := by
          rw [htext]
          simp
        apply ih hrest hall
        rwa [Text.byteLength_append, Text.byteLength_toList]

theorem Stands.offset_lt (h : copy.Stands source text) : copy.offset < text.utf8ByteSize := by
  obtain ⟨before, within, after, htext, hne, hoffset, -⟩ := h
  have hsize := congrArg byteLength htext
  have hpos := Text.byteLength_pos hne
  rw [Text.byteLength_toList, Text.byteLength_append, Text.byteLength_append] at hsize
  omega

theorem offset_of_mem_copies {rule : Rule} {offset : Nat} (hrule : rule.Stands source)
    (hcopy : copy ∈ rule.copies offset) :
    offset ≤ copy.offset ∧ copy.offset < offset + (rule.text source).utf8ByteSize := by
  obtain ⟨part, hpart, rfl⟩ := List.mem_map.mp hcopy
  obtain ⟨before, within, after, hwithin, hne, -, hstart⟩ := hrule.text?_part hpart
  have hsize := congrArg byteLength hwithin
  have hpos := Text.byteLength_pos hne
  rw [Text.byteLength_toList, Text.byteLength_append, Text.byteLength_append] at hsize
  dsimp only
  omega

theorem offset_le_of_mem_ofRules {rules : List Rule} {offset : Nat}
    (hrules : ∀ rule ∈ rules, rule.Stands source) (hcopy : copy ∈ ofRules source offset rules) :
    offset ≤ copy.offset := by
  induction rules generalizing offset with
  | nil => simp [ofRules] at hcopy
  | cons rule rules ih =>
      obtain ⟨hrule, hrest⟩ := List.forall_mem_cons.mp hrules
      rcases List.mem_append.mp hcopy with hfirst | hlater
      · exact (offset_of_mem_copies hrule hfirst).1
      · exact Nat.le_trans (Nat.le_add_right ..) (ih hrest hlater)

theorem pairwise_offset {rules : List Rule} (offset : Nat)
    (hrules : ∀ rule ∈ rules, rule.Stands source) :
    (ofRules source offset rules).Pairwise fun first second =>
      first.offset < second.offset := by
  induction rules generalizing offset with
  | nil => exact List.Pairwise.nil
  | cons rule rules ih =>
      obtain ⟨hrule, hrest⟩ := List.forall_mem_cons.mp hrules
      rw [ofRules, List.pairwise_append]
      refine ⟨?_, ih _ hrest, ?_⟩
      · have hordered := hrule.ordered
        rw [List.pairwise_map] at hordered
        rw [Rule.copies, List.pairwise_map]
        apply hordered.imp_of_mem
        intro first second hfirst _ hlt
        have hle := hrule.start_le hfirst
        dsimp only
        omega
      · intro first hfirst second hsecond
        have hlt := (offset_of_mem_copies hrule hfirst).2
        have hle := offset_le_of_mem_ofRules hrest hsecond
        omega

theorem generated_of_mapping? {map : SourceMap} {mapping : Mapping}
    (h : copy.mapping? map source text = some mapping) :
    map.origin? source copy.part = some mapping.origin ∧
      Position.ofOffset? text copy.offset = some mapping.generated := by
  obtain ⟨origin, horigin, hrest⟩ := Option.bind_eq_some_iff.mp h
  obtain ⟨generated, hgenerated, hmapping⟩ := Option.bind_eq_some_iff.mp hrest
  cases hmapping
  exact ⟨horigin, hgenerated⟩

theorem exists_of_mem_mappings {map : SourceMap} {copies : List Copy} {mapping : Mapping}
    (h : mapping ∈ copies.filterMap (Copy.mapping? map source text)) :
    ∃ copy ∈ copies, map.origin? source copy.part = some mapping.origin ∧
      Position.ofOffset? text copy.offset = some mapping.generated := by
  obtain ⟨copy, hcopy, hmapped⟩ := List.mem_filterMap.mp h
  exact ⟨copy, hcopy, generated_of_mapping? hmapped⟩

theorem filter_mappings_of_before {map : SourceMap} {earlier later : List Copy}
    {generated : Position} (hordered : (earlier ++ copy :: later).Pairwise (Before text))
    (hgenerated : Position.ofOffset? text copy.offset = some generated) :
    ((earlier ++ copy :: later).filterMap (Copy.mapping? map source text)).filter
        (fun mapping => mapping.generated.line = generated.line ∧
          mapping.generated.column ≤ generated.column) =
      (earlier.filterMap (Copy.mapping? map source text)).filter
          (·.generated.line = generated.line) ++
        (copy.mapping? map source text).toList := by
  rw [List.pairwise_append, List.pairwise_cons] at hordered
  obtain ⟨-, ⟨hlater, -⟩, hearlier⟩ := hordered
  have hsplit : (earlier ++ copy :: later).filterMap (Copy.mapping? map source text) =
      earlier.filterMap (Copy.mapping? map source text) ++
        ((copy.mapping? map source text).toList ++
          later.filterMap (Copy.mapping? map source text)) := by
    rw [List.filterMap_append, List.filterMap_cons]
    cases copy.mapping? map source text <;> rfl
  have hnone : (later.filterMap (Copy.mapping? map source text)).filter
      (fun mapping => mapping.generated.line = generated.line ∧
        mapping.generated.column ≤ generated.column) = [] := by
    rw [List.filter_eq_nil_iff]
    intro mapping hmapping hholds
    obtain ⟨other, hother, -, hposition⟩ := exists_of_mem_mappings hmapping
    have hafter := hlater other hother _ hgenerated _ hposition
    obtain ⟨hline, hcolumn⟩ := of_decide_eq_true hholds
    exact hafter.not_column_le hline hcolumn
  have hself : (copy.mapping? map source text).toList.filter
      (fun mapping => mapping.generated.line = generated.line ∧
        mapping.generated.column ≤ generated.column) =
          (copy.mapping? map source text).toList := by
    rw [List.filter_eq_self]
    intro mapping hmapping
    have hposition := (generated_of_mapping? (Option.mem_toList.mp hmapping)).2
    rw [hgenerated] at hposition
    cases hposition
    simp
  rw [hsplit, List.filter_append, List.filter_append, hnone, hself, List.append_nil]
  congr 1
  apply List.filter_congr
  intro mapping hmapping
  obtain ⟨other, hother, -, hposition⟩ := exists_of_mem_mappings hmapping
  have hbefore := hearlier other hother copy (List.mem_cons_self ..) _ hposition _ hgenerated
  have hcolumn := hbefore.column_le
  simpa using hcolumn

end Copy

namespace Block

variable {source : String} (map : SourceMap)

theorem origins_eq_filterMap_parts {rule : Rule} (hrule : rule.Stands source) :
    Routing.origins map (.ofText source) rule = rule.parts.filterMap fun part =>
      (map.origin? source part).map (part.span.start - rule.span.start, ·) := by
  apply List.filterMap_congr
  intro part hpart
  rw [LineIndex.position?_ofText, SourceMap.origin?]
  cases Position.ofOffset? source part.span.start with
  | none => rfl
  | some generated =>
      cases horigin : map.sourcePosition? generated with
      | none => simp [horigin]
      | some origin => simp [horigin, hrule.start_le hpart]

theorem mappings_append_rule {block : Block} {rule : Rule} (h : block.AtEnd)
    (hrule : rule.Stands source) (later : String) :
    (block.append (rule.text source)
        (Routing.origins map (.ofText source) rule)).mappings.toList =
      block.mappings.toList ++
        (rule.copies block.text.utf8ByteSize).filterMap
          (Copy.mapping? map source (block.text ++ rule.text source ++ later)) := by
  rw [mappings_append, origins_eq_filterMap_parts map hrule, List.filterMap_filterMap,
    Rule.copies, List.filterMap_map]
  congr 1
  apply List.filterMap_congr
  intro part hpart
  have hstands : Copy.Stands
      ⟨block.text.utf8ByteSize + (part.span.start - rule.span.start), part⟩ source
      (block.text ++ rule.text source) := by
    have htext : (block.text ++ rule.text source).toList =
        block.text.toList ++ ((rule.text source).toList ++ []) := by
      rw [String.toList_append, List.append_nil]
    apply Copy.stands_of_mem_copies hrule htext
    rw [Text.byteLength_toList]
    exact List.mem_map_of_mem hpart
  rw [Function.comp_apply, Copy.mapping?, hstands.ofOffset?_append, ← h.positionWithin?]
  cases map.origin? source part with
  | none => rfl
  | some origin =>
      cases hposition : block.cursor.positionWithin? (rule.text source)
        (part.span.start - rule.span.start) <;> simp [hposition]

/-- A block has the mappings of its copies, and no others. -/
theorem mappings_appendRules {block : Block} {rules : List Rule} (h : block.AtEnd)
    (hrules : ∀ rule ∈ rules, rule.Stands source) (later : String) :
    (block.appendRules source (Routing.origins map (.ofText source)) rules).mappings.toList =
      block.mappings.toList ++
        (Copy.ofRules source block.text.utf8ByteSize rules).filterMap
          (Copy.mapping? map source
            (block.text ++ String.join (rules.map (·.text source)) ++ later)) := by
  induction rules generalizing block with
  | nil => simp [appendRules, Copy.ofRules]
  | cons rule rules ih =>
      obtain ⟨hrule, hrest⟩ := List.forall_mem_cons.mp hrules
      have hmappings := ih (h.append (rule.text source)
        (Routing.origins map (.ofText source) rule)) hrest
      rw [mappings_append_rule map h hrule
          (String.join (rules.map (·.text source)) ++ later),
        text_append, String.utf8ByteSize_append] at hmappings
      rw [List.map_cons, String.join_cons, Copy.ofRules, List.filterMap_append,
        ← List.append_assoc]
      simp only [String.append_assoc] at hmappings ⊢
      exact hmappings

end Block

end StyleSplit
