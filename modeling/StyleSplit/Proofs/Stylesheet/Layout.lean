import StyleSplit.Proofs.Text.Slice
import StyleSplit.Stylesheet.Rule

/-! How rules lie in a text: in order, apart, and each media rule around the
rules of its block. -/

namespace StyleSplit

open Text (byteLength)

def Span.Holds (span : Span) (offset : Nat) : Prop :=
  span.start ≤ offset ∧ offset < span.stop

mutual

/-- `rule` covers exactly `text`, which starts at byte `start`. -/
inductive Covers (loose : Char → Prop) : Nat → List Char → Rule → Prop
  | style {start text span} (nonempty : text ≠ [])
      (span_eq : span = ⟨start, start + byteLength text⟩) :
      Covers loose start text (.style span)
  | atRule {start text name span} (nonempty : text ≠ [])
      (span_eq : span = ⟨start, start + byteLength text⟩) :
      Covers loose start text (.atRule name span)
  | comment {start text body ending span} (shape : text = '/' :: '*' :: (body ++ ending))
      (span_eq : span = ⟨start, start + byteLength text⟩) :
      Covers loose start text (.comment (.ofList body) span)
  | media {start text opening block children span}
      (shape : text = opening ++ '\x7b' :: (block ++ ['\x7d']))
      (span_eq : span = ⟨start, start + byteLength text⟩)
      (layout : Layout loose (start + byteLength opening + 1) block children) :
      Covers loose start text (.media children span)

/-- `rules` stand one after the other in `text`, which starts at byte `start`.
What is not part of a rule is made of `loose` characters. -/
inductive Layout (loose : Char → Prop) : Nat → List Char → List Rule → Prop
  | nil {start gap} (free : ∀ c ∈ gap, loose c) : Layout loose start gap []
  | cons {start gap text rest rule rules} (free : ∀ c ∈ gap, loose c)
      (covers : Covers loose (start + byteLength gap) text rule)
      (layout : Layout loose (start + byteLength gap + byteLength text) rest rules) :
      Layout loose start (gap ++ (text ++ rest)) (rule :: rules)

end

variable {loose : Char → Prop} {start : Nat} {text : List Char} {rule : Rule}
  {rules : List Rule}

theorem Layout.cons_tight {rest : List Char} (covers : Covers loose start text rule)
    (layout : Layout loose (start + byteLength text) rest rules) :
    Layout loose start (text ++ rest) (rule :: rules) :=
  @Layout.cons loose start [] text rest rule rules (by simp) covers layout

namespace Covers

theorem span_eq (h : Covers loose start text rule) :
    rule.span = ⟨start, start + byteLength text⟩ := by
  cases h <;> assumption

theorem ne_nil (h : Covers loose start text rule) : text ≠ [] := by
  cases h with
  | style nonempty => exact nonempty
  | atRule nonempty => exact nonempty
  | comment shape => simp [shape]
  | media shape => simp [shape]

theorem exists_children (h : Covers loose start text rule) :
    ∃ opening block closing, text = opening ++ (block ++ closing) ∧ opening ≠ [] ∧
      (rule.children = [] ∨
        Layout loose (start + byteLength opening) block rule.children) := by
  cases h with
  | style nonempty => exact ⟨text, [], [], by simp, nonempty, .inl rfl⟩
  | atRule nonempty => exact ⟨text, [], [], by simp, nonempty, .inl rfl⟩
  | comment shape => exact ⟨text, [], [], by simp, by simp [shape], .inl rfl⟩
  | @media _ _ opening block children _ shape _ layout =>
      have hlayout :
          Layout loose (start + byteLength (opening ++ ['\x7b'])) block children := by
        simpa [Text.utf8Size_leftBrace, Nat.add_assoc] using layout
      exact ⟨opening ++ ['\x7b'], block, ['\x7d'], by simp [shape], by simp, .inr hlayout⟩

end Covers

mutual

theorem Covers.mono {stricter : Char → Prop} (hloose : ∀ c, stricter c → loose c) :
    ∀ {start text rule}, Covers stricter start text rule → Covers loose start text rule
  | _, _, _, .style nonempty span_eq => .style nonempty span_eq
  | _, _, _, .atRule nonempty span_eq => .atRule nonempty span_eq
  | _, _, _, .comment shape span_eq => .comment shape span_eq
  | _, _, _, .media shape span_eq layout => .media shape span_eq (layout.mono hloose)

theorem Layout.mono {stricter : Char → Prop} (hloose : ∀ c, stricter c → loose c) :
    ∀ {start text rules}, Layout stricter start text rules → Layout loose start text rules
  | _, _, _, .nil free => .nil fun c hc => hloose c (free c hc)
  | _, _, _, .cons free covers layout =>
      .cons (fun c hc => hloose c (free c hc)) (covers.mono hloose) (layout.mono hloose)

end

theorem eq_of_append_cons {before after first second : List Char} {c : Char}
    (h : before ++ c :: after = first ++ second) :
    (∃ more, first = before ++ c :: more) ∨
      ∃ more, before = first ++ more ∧ more ++ c :: after = second := by
  rcases List.append_eq_append_iff.mp h with ⟨more, hfirst, hsecond⟩ | ⟨more, hbefore, hsecond⟩
  · cases more with
    | nil => exact .inr ⟨[], by simpa using hfirst.symm, hsecond⟩
    | cons d more =>
        rw [List.cons_append] at hsecond
        obtain ⟨rfl, -⟩ := List.cons.inj hsecond
        exact .inl ⟨more, hfirst⟩
  · exact .inr ⟨more, hbefore, hsecond.symm⟩

namespace Layout

theorem skip {gap : List Char} (hgap : ∀ c ∈ gap, loose c)
    (h : Layout loose (start + byteLength gap) text rules) :
    Layout loose start (gap ++ text) rules := by
  have hall : ∀ {further : List Char}, (∀ c ∈ further, loose c) →
      ∀ c ∈ gap ++ further, loose c := by
    intro further hfurther c hc
    rcases List.mem_append.mp hc with hc | hc
    · exact hgap c hc
    · exact hfurther c hc
  cases h with
  | nil free => exact .nil (hall free)
  | cons free covers layout =>
      rw [← List.append_assoc]
      refine .cons (hall free) ?_ ?_
      · simpa [Nat.add_assoc] using covers
      · simpa [Nat.add_assoc] using layout

theorem exists_covers (h : Layout loose start text rules) (hrule : rule ∈ rules) :
    ∃ before within after, text = before ++ (within ++ after) ∧
      Covers loose (start + byteLength before) within rule := by
  induction rules generalizing start text with
  | nil => simp at hrule
  | cons first rules ih =>
      cases h with
      | @cons _ gap within rest _ _ free covers layout =>
          rcases List.mem_cons.mp hrule with rfl | hrule
          · exact ⟨gap, within, rest, rfl, covers⟩
          · obtain ⟨before, inner, after, rfl, hcovers⟩ := ih layout hrule
            refine ⟨gap ++ (within ++ before), inner, after, by simp, ?_⟩
            simpa [Nat.add_assoc] using hcovers

theorem pairwise_start_lt (h : Layout loose start text rules) :
    (rules.map fun rule => rule.span.start).Pairwise (· < ·) ∧
      ∀ rule ∈ rules, start ≤ rule.span.start := by
  induction rules generalizing start text with
  | nil => exact ⟨.nil, by simp⟩
  | cons first rules ih =>
      cases h with
      | cons free covers layout =>
          obtain ⟨hpairwise, hstart⟩ := ih layout
          have hlength := Text.byteLength_pos covers.ne_nil
          have hspan := congrArg Span.start covers.span_eq
          dsimp only at hspan
          constructor
          · rw [List.map_cons, List.pairwise_cons]
            refine ⟨?_, hpairwise⟩
            intro later hlater
            obtain ⟨rule, hrule, rfl⟩ := List.mem_map.mp hlater
            have hle := hstart rule hrule
            omega
          · intro rule hrule
            rcases List.mem_cons.mp hrule with rfl | hrule
            · omega
            · have hle := hstart rule hrule
              omega

theorem ordered (h : Layout loose start text rules) :
    (rules.Pairwise fun first second => first.span.stop ≤ second.span.start) ∧
      ∀ rule ∈ rules, start ≤ rule.span.start ∧ rule.span.stop ≤ start + byteLength text := by
  induction rules generalizing start text with
  | nil => exact ⟨.nil, by simp⟩
  | cons first rules ih =>
      cases h with
      | @cons _ gap within rest _ _ free covers layout =>
          obtain ⟨hpairwise, hinside⟩ := ih layout
          have hspan := covers.span_eq
          simp only [Text.byteLength_append]
          refine ⟨.cons ?_ hpairwise, List.forall_mem_cons.mpr ⟨?_, ?_⟩⟩
          · intro rule hrule
            rw [hspan]
            exact (hinside rule hrule).1
          · rw [hspan]
            dsimp only
            omega
          · intro rule hrule
            have hrest := hinside rule hrule
            omega

theorem loose_of_outside {before after : List Char} {c : Char}
    (h : Layout loose start (before ++ c :: after) rules)
    (houtside : ∀ rule ∈ rules, ¬ rule.span.Holds (start + byteLength before)) : loose c := by
  generalize htext : before ++ c :: after = text at h
  induction rules generalizing start text before with
  | nil =>
      cases h with
      | nil free => exact free c (htext ▸ List.mem_append_right _ List.mem_cons_self)
  | cons first rules ih =>
      obtain ⟨hfirst, hrules⟩ := List.forall_mem_cons.mp houtside
      cases h with
      | @cons _ gap within rest _ _ free covers layout =>
          rcases eq_of_append_cons htext with ⟨more, rfl⟩ | ⟨more, rfl, hwithin⟩
          · exact free c (by simp)
          · rcases eq_of_append_cons hwithin with ⟨inner, rfl⟩ | ⟨inner, rfl, hrest⟩
            · refine absurd ?_ hfirst
              have hpos := c.utf8Size_pos
              rw [covers.span_eq, Span.Holds]
              simp only [Text.byteLength_append, Text.byteLength_cons]
              omega
            · refine ih ?_ _ hrest layout
              simpa only [Text.byteLength_append, Nat.add_assoc] using hrules

end Layout

end StyleSplit
