import StyleSplit.Proofs.Stylesheet.Reading

/-! The parts of a rule that can be traced on their own: the rule, and the rules
right inside it. They are pieces of its text, in order. -/

namespace StyleSplit

open Text (byteLength)

def Rule.parts (rule : Rule) : List Rule :=
  rule :: rule.children

/-- `rule` is a piece of `text`, and its parts start one after the other in it. -/
structure Rule.Stands (rule : Rule) (text : String) : Prop where
  text?_eq : rule.span.text? text = some (rule.text text)
  part_of_mem : ∀ part ∈ rule.parts, ∃ before within after,
    (rule.text text).toList = before ++ (within ++ after) ∧ within ≠ [] ∧
      part.span = ⟨rule.span.start + byteLength before,
        rule.span.start + byteLength before + byteLength within⟩
  ordered : (rule.parts.map fun part => part.span.start).Pairwise (· < ·)

namespace Rule.Stands

variable {rule part : Rule} {text : String}

theorem exists_split (h : rule.Stands text) :
    ∃ before after, text.toList = before ++ ((rule.text text).toList ++ after) ∧
      byteLength before = rule.span.start := by
  obtain ⟨before, after, htext, hstart, -⟩ := Text.between?_eq_some_iff.mp h.text?_eq
  exact ⟨before, after, htext, hstart⟩

theorem start_le (h : rule.Stands text) (hpart : part ∈ rule.parts) :
    rule.span.start ≤ part.span.start := by
  obtain ⟨before, within, after, -, -, hspan⟩ := h.part_of_mem part hpart
  rw [hspan]
  exact Nat.le_add_right ..

theorem text?_part (h : rule.Stands text) (hpart : part ∈ rule.parts) :
    ∃ before within after, (rule.text text).toList = before ++ (within ++ after) ∧
      within ≠ [] ∧ part.span.text? text = some (.ofList within) ∧
      part.span.start = rule.span.start + byteLength before := by
  obtain ⟨first, last, htext, hstart⟩ := h.exists_split
  obtain ⟨before, within, after, hrule, hne, hspan⟩ := h.part_of_mem part hpart
  refine ⟨before, within, after, hrule, hne, ?_, congrArg Span.start hspan⟩
  rw [Span.text?, hspan, Text.between?_eq_some_iff]
  refine ⟨first ++ before, after ++ last, ?_, ?_, ?_⟩
  · rw [htext, hrule, String.toList_ofList]
    simp
  · rw [Text.byteLength_append, hstart]
  · rw [String.toList_ofList]

end Rule.Stands

theorem Rule.text?_eq {rule : Rule} {text : String} {before within after : List Char}
    (htext : text.toList = before ++ (within ++ after))
    (hspan : rule.span = ⟨byteLength before, byteLength before + byteLength within⟩) :
    rule.span.text? text = some (.ofList within) := by
  rw [Span.text?, hspan, Text.between?_eq_some_iff]
  exact ⟨before, after, by rw [htext, String.toList_ofList], rfl, by rw [String.toList_ofList]⟩

theorem Rule.text_eq {rule : Rule} {text : String} {before within after : List Char}
    (htext : text.toList = before ++ (within ++ after))
    (hspan : rule.span = ⟨byteLength before, byteLength before + byteLength within⟩) :
    rule.text text = .ofList within := by
  rw [Rule.text, Rule.text?_eq htext hspan]
  rfl

theorem Covers.stands {loose : Char → Prop} {rule : Rule} {text : String}
    {before within after : List Char} (htext : text.toList = before ++ (within ++ after))
    (h : Covers loose (byteLength before) within rule) : rule.Stands text := by
  have hspan := h.span_eq
  have htext? := Rule.text?_eq htext hspan
  have hrule := Rule.text_eq htext hspan
  obtain ⟨opening, block, closing, hwithin, hopening, hchildren⟩ := h.exists_children
  have hpos := Text.byteLength_pos hopening
  have hstart : rule.span.start = byteLength before := congrArg Span.start hspan
  refine ⟨by rw [htext?, hrule], ?_, ?_⟩
  · intro part hpart
    rw [hrule, String.toList_ofList]
    rcases List.mem_cons.mp hpart with rfl | hpart
    · exact ⟨[], within, [], by simp, h.ne_nil, by simpa [hstart] using hspan⟩
    · rcases hchildren with hnone | hlayout
      · rw [hnone] at hpart
        simp at hpart
      · obtain ⟨first, inner, last, hblock, hcovers⟩ := hlayout.exists_covers hpart
        refine ⟨opening ++ first, inner, last ++ closing, ?_, hcovers.ne_nil, ?_⟩
        · rw [hwithin, hblock]
          simp
        · rw [hcovers.span_eq, hstart, Text.byteLength_append]
          simp [Nat.add_assoc]
  · rw [Rule.parts, List.map_cons, List.pairwise_cons, hstart]
    rcases hchildren with hnone | hlayout
    · rw [hnone]
      simp
    · obtain ⟨hpairwise, hafter⟩ := hlayout.pairwise_start_lt
      refine ⟨?_, hpairwise⟩
      intro later hlater
      obtain ⟨child, hchild, rfl⟩ := List.mem_map.mp hlater
      have hle := hafter child hchild
      omega

theorem Layout.sum_byteLength_le {loose : Char → Prop} {text : String} {rules : List Rule}
    {before within after : List Char} (htext : text.toList = before ++ (within ++ after))
    (h : Layout loose (byteLength before) within rules) :
    (rules.map fun rule => (rule.text text).utf8ByteSize).sum ≤ byteLength within := by
  induction rules generalizing before within with
  | nil => exact Nat.zero_le _
  | cons rule rules ih =>
      cases h with
      | @cons _ gap piece rest _ _ free covers layout =>
          have hgap : text.toList = (before ++ gap) ++ (piece ++ (rest ++ after)) := by
            rw [htext]
            simp
          have hpiece : text.toList = (before ++ gap ++ piece) ++ (rest ++ after) := by
            rw [htext]
            simp
          rw [← Text.byteLength_append] at covers layout
          have hspan := covers.span_eq
          have hsize : (rule.text text).utf8ByteSize = byteLength piece := by
            have hstands := covers.stands hgap
            obtain ⟨_, _, _, _, hstop⟩ :=
              Text.between?_eq_some_iff.mp hstands.text?_eq
            rw [hspan, Text.byteLength_toList] at hstop
            exact Nat.add_left_cancel hstop
          rw [← Text.byteLength_append] at layout
          have hrest := ih hpiece layout
          rw [List.map_cons, List.sum_cons, hsize]
          simp only [Text.byteLength_append]
          omega

namespace Stylesheet

variable {text : String}

theorem layout_rules (text : String) :
    ∃ loose before within, text.toList = before ++ (within ++ []) ∧
      Layout loose (byteLength before) within (ofText text).rules := by
  obtain ⟨mark, rest, htext, -, hlayout⟩ := Reading.layout_ofText text.toList
  exact ⟨_, mark, rest, by simpa using htext, hlayout⟩

theorem stands_of_mem {rule : Rule} (hrule : rule ∈ (ofText text).rules) :
    rule.Stands text := by
  obtain ⟨loose, before, within, htext, hlayout⟩ := layout_rules text
  obtain ⟨first, piece, last, hwithin, hcovers⟩ := hlayout.exists_covers hrule
  rw [← Text.byteLength_append] at hcovers
  have hall : text.toList = (before ++ first) ++ (piece ++ last) := by
    rw [htext, hwithin]
    simp
  exact hcovers.stands hall

theorem sum_utf8ByteSize_le (text : String) :
    ((ofText text).rules.map fun rule => (rule.text text).utf8ByteSize).sum ≤
      text.utf8ByteSize := by
  obtain ⟨loose, before, within, htext, hlayout⟩ := layout_rules text
  have hsum := hlayout.sum_byteLength_le htext
  have hsize := congrArg byteLength htext
  rw [Text.byteLength_toList, Text.byteLength_append, Text.byteLength_append] at hsize
  omega

end Stylesheet

end StyleSplit
