import StyleSplit.Proofs.Stylesheet.Parts
import StyleSplit.Proofs.Stylesheet.Steps

/-! The rules of a stylesheet at every depth. Each comes from one step of the reading at
the place where it stands in the text. -/

namespace StyleSplit

open Lexeme (textOf textOf_append textOf_cons Lexed)
open Text (byteLength isWhite)

/-- The rules of a list, the rules in their blocks, and so on. -/
inductive Rule.Within (rules : List Rule) : Rule → Prop
  | top {rule} (mem : rule ∈ rules) : Within rules rule
  | child {parent rule} (within : Within rules parent) (mem : rule ∈ parent.children) :
      Within rules rule

/-- The bytes between the braces of a media rule. The opening one is the first outside
strings, comments, escapes and parentheses, and the closing one ends the rule. -/
def Rule.block? (rule : Rule) (text : String) : Option Span :=
  match rule with
  | .media _ span =>
      match Stylesheet.takePrelude 0 (Lexeme.ofText (rule.text text).toList) with
      | (opening, some (.opening, _)) =>
          some ⟨span.start + Lexeme.sizeOf opening + 1, span.stop - 1⟩
      | _ => none
  | _ => none

namespace Stylesheet

variable {start : Nat} {lexemes : List Lexeme}

theorem Step.exists_style {found : Rule} (h : (ofStyle start lexemes).item = .rule found) :
    ∃ span, found = .style span := by
  obtain ⟨step, hstep, hview⟩ := exists_styleView start lexemes
  rw [hstep] at h
  cases hview with
  | unended | semicolon | closing => cases h
  | unclosed | block =>
      cases h
      exact ⟨_, rfl⟩

theorem Step.exists_atRule {found : Rule} (h : (ofAtRule start lexemes).item = .rule found) :
    ∃ name span, found = .atRule name span := by
  obtain ⟨name, tail, step, -, hstep, hview⟩ := exists_atRuleView start lexemes
  rw [hstep] at h
  cases hview with
  | media => cases h
  | unended | semicolon | closing | unclosed | block =>
      cases h
      exact ⟨_, _, rfl⟩

theorem Step.cases_rule {lexeme : Lexeme} {rest : List Lexeme} {found : Rule}
    (h : (ofLexeme start lexeme rest).item = .rule found) :
    (∃ body, lexeme = .comment body ∧
        found = .comment (.ofList body) ⟨start, start + lexeme.size⟩) ∨
      (∃ body, lexeme = .openComment body ∧
        found = .comment (.ofList body) ⟨start, start + lexeme.size⟩) ∨
      (∃ name span, found = .atRule name span) ∨ ∃ span, found = .style span := by
  obtain ⟨step, hstep, hview⟩ := exists_view start lexeme rest
  rw [hstep] at h
  cases hview with
  | @comment body stop hstop =>
      cases h
      exact .inl ⟨body, rfl, by rw [hstop]⟩
  | @openComment body stop hstop =>
      cases h
      exact .inr (.inl ⟨body, rfl, by rw [hstop]⟩)
  | blank | brace => cases h
  | atRule => exact .inr (.inr (.inl (exists_atRule h)))
  | style => exact .inr (.inr (.inr (exists_style h)))

theorem Step.ne_media_of_rule {lexeme : Lexeme} {rest : List Lexeme} {found : Rule}
    (h : (ofLexeme start lexeme rest).item = .rule found) (children : List Rule) (span : Span) :
    found ≠ .media children span := by
  rcases cases_rule h with ⟨body, -, rfl⟩ | ⟨body, -, rfl⟩ | ⟨name, other, rfl⟩ | ⟨other, rfl⟩ <;>
    exact Rule.noConfusion

theorem Step.eq_of_comment {lexeme : Lexeme} {rest : List Lexeme} {body : String} {span : Span}
    (hitem : (ofLexeme start lexeme rest).item = .rule (.comment body span))
    (hflaws : (ofLexeme start lexeme rest).flaws = []) :
    lexeme = .comment body.toList ∧ span = ⟨start, start + lexeme.size⟩ := by
  rcases cases_rule hitem with ⟨found, rfl, hfound⟩ | ⟨found, rfl, -⟩ | ⟨_, _, hfound⟩ | ⟨_, hfound⟩
  · injection hfound with hbody hspan
    exact ⟨by rw [hbody, String.toList_ofList], hspan⟩
  · cases hflaws
  · cases hfound
  · cases hfound

theorem Reading.exists_step_of_mem {rule : Rule} (hrule : rule ∈ (ofLexemes start lexemes).rules) :
    ∃ first lexeme rest step, lexemes = first ++ lexeme :: rest ∧
      Step.ofLexeme (start + byteLength (textOf first)) lexeme rest = step ∧
      rule ∈ step.item.reading.rules ∧
      ((ofLexemes start lexemes).flaws = [] → step.flaws = [] ∧ step.item.reading.flaws = []) := by
  induction start, lexemes using Reading.induction with
  | nil start => simp [ofLexemes] at hrule
  | cons start lexeme lexemes _ ih =>
      obtain ⟨taken, htaken, -, hreads⟩ := Step.exists_taken start lexeme lexemes
      generalize hstep : Step.ofLexeme start lexeme lexemes = step at *
      rw [ofLexemes_cons start lexeme lexemes hstep] at hrule ⊢
      dsimp only at hrule ⊢
      rcases List.mem_append.mp hrule with hitem | hrest
      · refine ⟨[], lexeme, lexemes, step, rfl, hstep, hitem, ?_⟩
        intro hflaws
        rw [List.append_eq_nil_iff, List.append_eq_nil_iff] at hflaws
        exact hflaws.1
      · obtain ⟨first, next, rest, found, hlexemes, hfound, hmem, hclean⟩ := ih hrest
        refine ⟨taken ++ first, next, rest, found, ?_, ?_, hmem, ?_⟩
        · rw [List.append_assoc, ← hlexemes, htaken]
        · rwa [hreads.next_eq, Nat.add_assoc, ← Text.byteLength_append,
            ← textOf_append] at hfound
        · intro hflaws
          rw [List.append_eq_nil_iff] at hflaws
          exact hclean hflaws.2

end Stylesheet

/-- `rule` is what a step of the reading gives where it stands in `text`. -/
structure Rule.Placed (text : String) (clean : Prop) (rule : Rule) : Prop where
  exists_step : ∃ before lexeme rest after step,
    text.toList = before ++ (textOf (lexeme :: rest) ++ after) ∧ Lexed (lexeme :: rest) ∧
      Stylesheet.Step.ofLexeme (byteLength before) lexeme rest = step ∧
      rule ∈ step.item.reading.rules ∧ (clean → step.item.reading.flaws = [])

namespace Rule.Placed

open Stylesheet

variable {text : String} {clean : Prop} {rule : Rule}

theorem of_mem {before after : List Char} {lexemes : List Lexeme}
    (htext : text.toList = before ++ (textOf lexemes ++ after)) (hlexed : Lexed lexemes)
    (hrule : rule ∈ (Reading.ofLexemes (byteLength before) lexemes).rules)
    (hclean : clean → (Reading.ofLexemes (byteLength before) lexemes).flaws = []) :
    rule.Placed text clean := by
  obtain ⟨first, lexeme, rest, step, rfl, hstep, hmem, hflaws⟩ :=
    Reading.exists_step_of_mem hrule
  refine ⟨before ++ textOf first, lexeme, rest, after, step, ?_, hlexed.right, ?_, hmem, ?_⟩
  · rw [htext, textOf_append]
    simp
  · rw [Text.byteLength_append, hstep]
  · exact fun h => (hflaws (hclean h)).2

/-- What stands between the braces of a media rule is read on its own. -/
theorem exists_block {children : List Rule} {span : Span}
    (h : (Rule.media children span).Placed text clean) :
    ∃ before opening body after,
      text.toList = before ++ (textOf opening ++ '\x7b' :: (textOf body ++ '\x7d' :: after)) ∧
      Lexed (opening ++ .plain '\x7b' :: (body ++ [.plain '\x7d'])) ∧
      (∀ other, takePrelude 0 (opening ++ .plain '\x7b' :: other) =
        (opening, some (.opening, other))) ∧
      (∀ other, takeBlock? 0 (body ++ .plain '\x7d' :: other) = some (body, other)) ∧
      span = ⟨byteLength before, byteLength (before ++ textOf opening) + 1 +
        byteLength (textOf body) + 1⟩ ∧
      children =
        (Reading.ofLexemes (byteLength (before ++ textOf opening) + 1) body).rules ∧
      (clean →
        (Reading.ofLexemes (byteLength (before ++ textOf opening) + 1) body).flaws = []) := by
  obtain ⟨before, lexeme, rest, after, step, htext, hlexed, hstep, hmem, hclean⟩ :=
    h.exists_step
  subst hstep
  cases hitem : (Step.ofLexeme (byteLength before) lexeme rest).item with
  | nothing => simp [hitem, Item.reading] at hmem
  | rule found =>
      rw [hitem] at hmem
      exact absurd (List.mem_singleton.mp hmem).symm (Step.ne_media_of_rule hitem children span)
  | media bodyStart body found =>
      obtain ⟨opening, following, hlexemes, hopening, hblock, hstart, hspan⟩ :=
        Step.exists_opening_of_media hitem
      rw [hitem] at hmem hclean
      have heq := List.mem_singleton.mp hmem
      injection heq with hchildren hfound
      subst hfound
      rw [hlexemes] at htext hlexed
      have hstart : bodyStart = byteLength (before ++ textOf opening) + 1 := by
        rw [hstart, Text.byteLength_append]
      refine ⟨before, opening, body, textOf following ++ after, ?_, ?_, hopening, hblock,
        ?_, ?_, ?_⟩
      · rw [htext]
        simp [textOf_append, textOf_cons, Lexeme.text]
      · have hwhole : opening ++ .plain '\x7b' :: (body ++ .plain '\x7d' :: following) =
            (opening ++ .plain '\x7b' :: (body ++ [.plain '\x7d'])) ++ following := by simp
        rw [hwhole] at hlexed
        exact hlexed.left
      · rw [hspan, hstart]
      · rw [hchildren, hstart]
      · rw [← hstart]
        exact hclean

theorem child {part : Rule} (h : rule.Placed text clean) (hpart : part ∈ rule.children) :
    part.Placed text clean := by
  cases rule with
  | media children span =>
      obtain ⟨before, opening, body, after, htext, hlexed, -, -, -, rfl, hclean⟩ := h.exists_block
      have hsize : byteLength (before ++ textOf opening) + 1 =
          byteLength (before ++ (textOf opening ++ ['\x7b'])) := by
        simp [Text.utf8Size_leftBrace, Nat.add_assoc]
      rw [hsize] at hclean
      have hbody : text.toList = (before ++ (textOf opening ++ ['\x7b'])) ++
          (textOf body ++ '\x7d' :: after) := by
        rw [htext]
        simp
      exact of_mem hbody hlexed.right.2.left (hsize ▸ hpart) hclean
  | style => simp [Rule.children] at hpart
  | atRule => simp [Rule.children] at hpart
  | comment => simp [Rule.children] at hpart

theorem covers (h : rule.Placed text clean) :
    ∃ before within after, text.toList = before ++ (within ++ after) ∧
      Covers (fun c => clean → isWhite c = true) (byteLength before) within rule := by
  obtain ⟨before, lexeme, rest, after, step, htext, -, hstep, hmem, hclean⟩ := h.exists_step
  obtain ⟨within, hreads⟩ := Step.reads_ofLexeme (byteLength before) lexeme rest
  rw [hstep] at hreads
  rw [hreads.split] at htext
  have hitem := hreads.item
  generalize step.item = item at hitem hmem hclean
  cases hitem with
  | nothing => simp [Item.reading] at hmem
  | @rule piece gap found shape covers free =>
      rw [List.mem_singleton.mp hmem]
      refine ⟨before, piece, gap ++ (textOf step.rest ++ after), ?_, covers _⟩
      rw [htext, shape]
      simp
  | @media opening body bodyStart span shape bodyStart_eq span_eq =>
      rw [List.mem_singleton.mp hmem]
      refine ⟨before, within, textOf step.rest ++ after, by rw [htext]; simp, ?_⟩
      refine .media shape span_eq ?_
      rw [← bodyStart_eq]
      exact (Reading.layout_ofLexemes bodyStart body).mono
        fun c hwhite hcleanly => hwhite (hclean hcleanly)

theorem block?_media {before after : List Char} {opening body : List Lexeme}
    (htext : text.toList =
      before ++ (textOf opening ++ '\x7b' :: (textOf body ++ '\x7d' :: after)))
    (hlexed : Lexed (opening ++ .plain '\x7b' :: (body ++ [.plain '\x7d'])))
    (hopening : ∀ other, takePrelude 0 (opening ++ .plain '\x7b' :: other) =
      (opening, some (.opening, other))) (children : List Rule) :
    (Rule.media children ⟨byteLength before,
        byteLength (before ++ textOf opening) + 1 + byteLength (textOf body) + 1⟩).block? text =
      some ⟨byteLength (before ++ textOf opening) + 1,
        byteLength (before ++ textOf opening) + 1 + byteLength (textOf body)⟩ := by
  have hwhole : text.toList =
      before ++ ((textOf opening ++ '\x7b' :: (textOf body ++ ['\x7d'])) ++ after) := by
    rw [htext]
    simp
  have hlexemes : Lexeme.ofText (textOf opening ++ '\x7b' :: (textOf body ++ ['\x7d'])) =
      opening ++ .plain '\x7b' :: (body ++ [.plain '\x7d']) := by
    have h := hlexed.ofText_textOf
    rwa [textOf_append, textOf_cons, textOf_append] at h
  have hstop : byteLength (before ++ textOf opening) + 1 + byteLength (textOf body) + 1 =
      byteLength before + byteLength (textOf opening ++ '\x7b' :: (textOf body ++ ['\x7d'])) := by
    rw [byteLength_block, Text.byteLength_append]
    omega
  rw [Rule.block?, Rule.text_eq hwhole (by rw [Rule.span, hstop]), String.toList_ofList,
    hlexemes, hopening]
  dsimp only
  rw [Lexeme.sizeOf_eq_byteLength, Text.byteLength_append, Nat.add_sub_cancel]

theorem block?_eq {children : List Rule} {span : Span}
    (h : (Rule.media children span).Placed text clean) :
    ∃ before within after,
      text.toList = before ++ '\x7b' :: (within ++ '\x7d' :: after) ∧
      span.start ≤ byteLength before ∧
      span.stop = byteLength before + 1 + byteLength within + 1 ∧
      (Rule.media children span).block? text =
        some ⟨byteLength before + 1, byteLength before + 1 + byteLength within⟩ ∧
      Layout (fun c => clean → isWhite c = true) (byteLength before + 1) within children := by
  obtain ⟨before, opening, body, after, htext, hlexed, hopening, -, rfl, rfl, hclean⟩ :=
    h.exists_block
  refine ⟨before ++ textOf opening, textOf body, after, by rw [htext]; simp, ?_, rfl, ?_, ?_⟩
  · rw [Text.byteLength_append]
    exact Nat.le_add_right ..
  · exact block?_media htext hlexed hopening _
  · exact (Reading.layout_ofLexemes _ body).mono
      fun c hwhite hcleanly => hwhite (hclean hcleanly)

end Rule.Placed

/-- What holds of each rule of a stylesheet: where it stands, and how the rules of its
block stand in it. -/
structure Rule.WellFormed (text : String) (rule : Rule) : Prop where
  nonempty : rule.span.start < rule.span.stop
  inside : rule.span.stop ≤ text.utf8ByteSize
  isBoundary_start : Text.isBoundary text rule.span.start = true
  isBoundary_stop : Text.isBoundary text rule.span.stop = true
  ordered : rule.children.Pairwise fun first second => first.span.stop ≤ second.span.start
  braced : ∀ children span, rule = .media children span → ∃ block,
    rule.block? text = some block ∧ span.start < block.start ∧ block.start ≤ block.stop ∧
      block.stop + 1 = span.stop ∧
      Text.between? text (block.start - 1) block.start = some "\x7b" ∧
      Text.between? text block.stop span.stop = some "\x7d" ∧
      ∀ child ∈ children, block.start ≤ child.span.start ∧ child.span.stop ≤ block.stop

theorem Text.isBoundary_byteLength {text : String} {before after : List Char}
    (htext : text.toList = before ++ after) : isBoundary text (byteLength before) = true := by
  rw [isBoundary_eq_isSome_cut?, htext, cut?_byteLength]
  rfl

theorem Rule.Placed.wellFormed {text : String} {clean : Prop} {rule : Rule}
    (h : rule.Placed text clean) : rule.WellFormed text := by
  obtain ⟨before, within, after, htext, hcovers⟩ := h.covers
  have hspan := hcovers.span_eq
  have hpos := Text.byteLength_pos hcovers.ne_nil
  have hsize := congrArg byteLength htext
  rw [Text.byteLength_toList, Text.byteLength_append, Text.byteLength_append] at hsize
  refine ⟨?_, ?_, ?_, ?_, ?_, ?_⟩
  · rw [hspan]
    exact Nat.lt_add_of_pos_right hpos
  · rw [hspan, hsize]
    dsimp only
    omega
  · rw [hspan]
    exact Text.isBoundary_byteLength htext
  · rw [hspan, ← Text.byteLength_append]
    rw [← List.append_assoc] at htext
    exact Text.isBoundary_byteLength htext
  · cases rule with
    | media children span =>
        obtain ⟨_, _, _, _, _, _, _, hlayout⟩ := h.block?_eq
        exact hlayout.ordered.1
    | style => exact .nil
    | atRule => exact .nil
    | comment => exact .nil
  · rintro children span rfl
    obtain ⟨first, inner, last, hfirst, hstart, hstop, hblock, hlayout⟩ := h.block?_eq
    refine ⟨_, hblock, by dsimp only; omega, by dsimp only; omega, hstop.symm, ?_, ?_, ?_⟩
    · rw [Text.between?_eq_some_iff]
      exact ⟨first, inner ++ '\x7d' :: last, hfirst, rfl, rfl⟩
    · rw [Text.between?_eq_some_iff]
      refine ⟨first ++ '\x7b' :: inner, last, by rw [hfirst]; simp, ?_, ?_⟩
      · simp [Text.utf8Size_leftBrace, Nat.add_assoc]
      · rw [hstop]
        rfl
    · intro child hchild
      exact hlayout.ordered.2 child hchild

namespace Stylesheet

variable {text : String} {rule : Rule}

theorem placed_of_within (h : Rule.Within (ofText text).rules rule) :
    rule.Placed text ((Reading.ofText text.toList).flaws = []) := by
  induction h with
  | @top rule hrule =>
      obtain ⟨mark, rest, htext, -, hreading⟩ := Reading.exists_ofText text.toList
      change rule ∈ (Reading.ofText text.toList).rules at hrule
      rw [hreading] at hrule ⊢
      have hall : text.toList = mark ++ (textOf (Lexeme.ofText rest) ++ []) := by
        rw [Lexeme.textOf_ofText, htext, List.append_nil]
      exact .of_mem hall (Lexeme.lexed_ofText rest) hrule id
  | child _ hpart ih => exact ih.child hpart

theorem exists_comment_of_mem (hclean : (ofText text).isClean = true) {body : String} {span : Span}
    (hrule : .comment body span ∈ (ofText text).rules) :
    ∃ before after, text.toList = before ++ (("/*" ++ body ++ "*/").toList ++ after) ∧
      span = ⟨byteLength before, byteLength before + byteLength ("/*" ++ body ++ "*/").toList⟩ := by
  obtain ⟨mark, rest, htext, -, hreading⟩ := Reading.exists_ofText text.toList
  have hflaws := flaws_eq_nil hclean
  change .comment body span ∈ (Reading.ofText text.toList).rules at hrule
  rw [hreading] at hrule hflaws
  obtain ⟨first, lexeme, later, step, hlexemes, rfl, hmem, hstep⟩ :=
    Reading.exists_step_of_mem hrule
  have hitem : (Step.ofLexeme (byteLength mark + byteLength (textOf first)) lexeme later).item =
      .rule (.comment body span) := by
    generalize (Step.ofLexeme _ lexeme later).item = item at hmem
    cases item with
    | nothing => cases hmem
    | rule found => rw [List.mem_singleton.mp hmem]
    | media => cases List.mem_singleton.mp hmem
  obtain ⟨rfl, hspan⟩ := Step.eq_of_comment hitem (hstep hflaws).1
  have hpiece : (Lexeme.comment body.toList).text = ("/*" ++ body ++ "*/").toList := by
    rw [String.toList_append, String.toList_append]
    rfl
  rw [← Text.byteLength_append, Lexeme.size, hpiece] at hspan
  refine ⟨mark ++ textOf first, textOf later, ?_, hspan⟩
  rw [htext, ← Lexeme.textOf_ofText rest, hlexemes, textOf_append, textOf_cons, hpiece,
    List.append_assoc]

/-- A stylesheet without problems leaves out white space only, and the byte order mark:
between its rules, and between the rules of each block. -/
theorem white_of_outside_rules (hclean : (ofText text).isClean = true) :
    (∀ before c after, text.toList = before ++ c :: after →
      (∀ rule ∈ (ofText text).rules, ¬ rule.span.Holds (byteLength before)) →
      isWhite c = true ∨ before = [] ∧ c = '\ufeff') ∧
    ∀ children span, Rule.Within (ofText text).rules (.media children span) →
      ∃ block, (Rule.media children span).block? text = some block ∧
        ∀ before c after, text.toList = before ++ c :: after →
          block.Holds (byteLength before) →
          (∀ child ∈ children, ¬ child.span.Holds (byteLength before)) → isWhite c = true := by
  have hflaws := flaws_eq_nil hclean
  constructor
  · intro before c after htext houtside
    obtain ⟨mark, rest, hmark, hbom, hlayout⟩ := Reading.layout_ofText text.toList
    rw [htext] at hmark
    rcases eq_of_append_cons hmark with ⟨more, hmore⟩ | ⟨more, rfl, hrest⟩
    · rcases hbom with rfl | rfl
      · simp at hmore
      · cases before with
        | nil => exact .inr ⟨rfl, (List.cons.inj hmore).1.symm⟩
        | cons d before => simp at hmore
    · rw [← hrest] at hlayout
      simp only [Text.byteLength_append] at houtside
      exact .inl (hlayout.loose_of_outside houtside hflaws)
  · intro children span hwithin
    obtain ⟨first, inner, last, hfirst, -, -, hblock, hlayout⟩ :=
      (placed_of_within hwithin).block?_eq
    refine ⟨_, hblock, ?_⟩
    intro before c after htext hholds houtside
    have hpos := c.utf8Size_pos
    have hcut : before ++ c :: after = (first ++ ['\x7b']) ++ (inner ++ '\x7d' :: last) := by
      rw [← htext, hfirst]
      simp
    rcases eq_of_append_cons hcut with ⟨more, hmore⟩ | ⟨more, rfl, hinner⟩
    · have hsize := congrArg byteLength hmore
      have hstart := hholds.1
      simp only [Text.byteLength_append, Text.byteLength_cons, Text.byteLength_nil,
        Text.utf8Size_leftBrace] at hsize hstart
      omega
    · rcases eq_of_append_cons hinner with ⟨inside, rfl⟩ | ⟨inside, rfl, -⟩
      · refine hlayout.loose_of_outside ?_ hflaws
        simpa [Text.utf8Size_leftBrace, Nat.add_assoc] using houtside
      · have hstop := hholds.2
        simp only [Text.byteLength_append, Text.byteLength_cons, Text.byteLength_nil,
          Text.utf8Size_leftBrace] at hstop
        omega

theorem white_of_outside_rules_media :
    let text := "\ufeff @media print\x7b .a\x7b\x7d\t\x7d\n"
    (ofText text).isClean = true ∧
      ∃ children span block, Rule.Within (ofText text).rules (.media children span) ∧
        children.map Rule.span = [⟨18, 22⟩] ∧
        (Rule.media children span).block? text = some block ∧
        ∀ before c after, text.toList = before ++ c :: after → block.Holds (byteLength before) →
          ¬ (⟨18, 22⟩ : Span).Holds (byteLength before) → isWhite c = true := by
  intro text
  have hclean : (ofText text).isClean = true := by decide +kernel
  have hspans : (ofText text).rules.map (fun rule => rule.children.map Rule.span) =
      [[⟨18, 22⟩]] := by decide +kernel
  obtain ⟨rule, hrules, hchildren⟩ := List.map_eq_singleton_iff.mp hspans
  cases rule with
  | media children span =>
      have hwithin : Rule.Within (ofText text).rules (.media children span) :=
        .top (by rw [hrules]; exact List.mem_cons_self)
      obtain ⟨block, hblock, hwhite⟩ := (white_of_outside_rules hclean).2 _ _ hwithin
      refine ⟨hclean, children, span, block, hwithin, hchildren, hblock, ?_⟩
      intro before c after htext hholds houtside
      refine hwhite before c after htext hholds fun child hchild => ?_
      have hspan := List.mem_map_of_mem (f := Rule.span) hchild
      rw [show children.map Rule.span = [⟨18, 22⟩] from hchildren] at hspan
      rwa [List.mem_singleton.mp hspan]
  | style => cases hchildren
  | atRule => cases hchildren
  | comment => cases hchildren

end Stylesheet

end StyleSplit
