import StyleSplit.Proofs.Stylesheet.Enclosed
import StyleSplit.Proofs.Stylesheet.Sealed

/-! Every comment and every block that is opened inside a media rule ends inside it. -/

namespace StyleSplit

open Lexeme (textOf textOf_append textOf_cons Lexed)
open Text (byteLength)

/-- A comment has its end mark, and a block its brace, where the text of the rule ends. -/
structure Rule.Closes (rule : Rule) (text : List Char) : Prop where
  comment : ∀ body, rule.comment? = some body → text = '/' :: '*' :: (body.toList ++ ['*', '/'])
  block : rule.comment? = none → ∀ opening inside,
    Stylesheet.takePrelude 0 (Lexeme.ofText text) = (opening, some (.opening, inside)) →
      ∃ body, Stylesheet.takeBlock? 0 inside = some (body, [])

namespace Stylesheet

/-- `rule` begins `text`, which starts at byte `start`, and closes what it opens. -/
def ClosesIn (rule : Rule) (start : Nat) (text : List Char) : Prop :=
  ∃ within gap, text = within ++ gap ∧ rule.span = ⟨start, start + byteLength within⟩ ∧
    rule.Closes within

section Steps

variable {start : Nat} {lexemes prelude body rest : List Lexeme} {rule : Rule}

theorem closes_of_takePrelude {text : List Char} {ending : Option (Stop × List Lexeme)}
    (hread : takePrelude 0 (Lexeme.ofText text) = (prelude, ending))
    (hending : ∀ inside, ending = some (.opening, inside) →
      ∃ body, takeBlock? 0 inside = some (body, []))
    (hcomment : rule.comment? = none) : rule.Closes text := by
  refine ⟨fun comment hsome => ?_, fun _ opening inside hopening => ?_⟩
  · rw [hcomment] at hsome
    cases hsome
  · rw [hread] at hopening
    exact hending inside (congrArg Prod.snd hopening)

theorem closesIn_of_block (hlexed : Lexed lexemes)
    (hlexemes : lexemes = prelude ++ .plain '\x7b' :: (body ++ .plain '\x7d' :: rest))
    (hprelude : ∀ other, takePrelude 0 (prelude ++ .plain '\x7b' :: other) =
      (prelude, some (.opening, other)))
    (hbody : ∀ other, takeBlock? 0 (body ++ .plain '\x7d' :: other) = some (body, other))
    (hspan : rule.span =
      ⟨start, start + byteLength (textOf prelude) + 1 + Lexeme.sizeOf body + 1⟩)
    (hcomment : rule.comment? = none) : ClosesIn rule start (textOf lexemes) := by
  have hcut : lexemes = (prelude ++ .plain '\x7b' :: (body ++ [.plain '\x7d'])) ++ rest := by
    rw [hlexemes]
    simp
  have htext : textOf (prelude ++ .plain '\x7b' :: (body ++ [.plain '\x7d'])) =
      textOf prelude ++ '\x7b' :: (textOf body ++ ['\x7d']) := by
    rw [textOf_append, textOf_cons, textOf_append]
    rfl
  have hsize := byteLength_block (textOf prelude) (textOf body)
  rw [hcut] at hlexed
  refine ⟨_, textOf rest, by rw [hcut, textOf_append], ?_, ?_⟩
  · rw [hspan, htext, hsize, Lexeme.sizeOf_eq_byteLength]
    congr 1
    omega
  · refine closes_of_takePrelude (hlexed.left.ofText_textOf.symm ▸ hprelude _) ?_ hcomment
    rintro inside heq
    cases heq
    exact ⟨body, hbody []⟩

theorem closesIn_ofStyle (hlexed : Lexed lexemes) (henclosed : Enclosed lexemes)
    (hrule : rule ∈ (Step.ofStyle start lexemes).item.reading.rules) :
    ClosesIn rule start (textOf lexemes) := by
  obtain ⟨step, hstep, hview⟩ := Step.exists_styleView start lexemes
  rw [hstep] at hrule
  cases hview with
  | unended | semicolon | closing => cases hrule
  | unclosed hprelude hblock => exact absurd hblock (henclosed.takeBlock?_ne_none hprelude)
  | block hprelude hblock _ hstop =>
      have hlexemes := takePrelude_eq_some hprelude
      rw [takeBlock?_append hblock] at hlexemes
      rw [List.mem_singleton.mp hrule]
      refine closesIn_of_block hlexed hlexemes (takePrelude_append_any hprelude)
        (takeBlock?_append_any hblock) ?_ rfl
      rw [Rule.span, hstop, Lexeme.sizeOf_eq_byteLength]

theorem takePrelude_prelude {depth : Nat} {ending : Option (Stop × List Lexeme)}
    (h : takePrelude depth lexemes = (prelude, ending)) :
    takePrelude depth prelude = (prelude, none) := by
  fun_induction takePrelude depth lexemes generalizing prelude with
  | case1 => cases h; rfl
  | case2 => cases h; rfl
  | case3 depth c lexemes hnone first second htake ih =>
      cases h
      rw [takePrelude, hnone, ih htake]
  | case4 depth lexeme lexemes hplain first second htake ih =>
      cases h
      rw [takePrelude, ih htake]
      exact hplain

theorem closesIn_of_unended {name : List Char} {after : List Char}
    (hlexed : Lexed (name.map .plain ++ prelude))
    (hname : ∀ c ∈ name, Text.isNameChar c = true)
    (hending : takePrelude 0 prelude = (prelude, none))
    (hspan : rule.span = ⟨start, trimmedStop start ('@' :: name ++ textOf prelude)⟩)
    (hcomment : rule.comment? = none) :
    ClosesIn rule start ('@' :: name ++ textOf prelude ++ after) := by
  have htext : textOf (name.map .plain ++ prelude) = name ++ textOf prelude := by
    rw [textOf_append, Lexeme.textOf_map_plain]
  have hunended : (takePrelude 0 (takeName (name.map .plain ++ prelude)).2).2 = none := by
    rw [← unended_iff_takeName, takePrelude_map_plain hname, hending]
  obtain ⟨within, gap, hwithin, hgap, -, hopen⟩ := exists_unended hlexed hunended
  rw [htext] at hwithin hgap
  have hnone := hopen [] (List.forall_mem_nil _)
  rw [List.append_nil, Unended] at hnone
  refine ⟨'@' :: within, gap ++ after, ?_, ?_, ?_⟩
  · rw [List.cons_append, hgap]
    simp
  · rw [hspan, trimmedStop, List.cons_append, hwithin]
  · refine closes_of_takePrelude (ofText_at within ▸ takePrelude_at _) (fun inside heq => ?_)
      hcomment
    rw [hnone] at heq
    cases heq

theorem closesIn_ofAtRule (hlexed : Lexed (.plain '@' :: lexemes)) (henclosed : Enclosed lexemes)
    (hrule : rule ∈ (Step.ofAtRule start lexemes).item.reading.rules) :
    ClosesIn rule start (textOf (.plain '@' :: lexemes)) := by
  obtain ⟨name, tail, step, hname, hstep, hview⟩ := Step.exists_atRuleView start lexemes
  have hlexemes := eq_of_takeName hname
  have hnameChars := isNameChar_of_takeName hname
  have hcut {prelude rest : List Lexeme} {stop : Stop}
      (hprelude : takePrelude 0 tail = (prelude, some (stop, rest))) :
      .plain '@' :: lexemes =
        .plain '@' :: (name.map .plain ++ prelude) ++ .plain stop.mark :: rest := by
    rw [← hlexemes, takePrelude_eq_some hprelude]
    simp
  rw [hstep] at hrule
  cases hview with
  | @unended prelude text hprelude htext =>
      rw [takePrelude_eq_none hprelude] at hlexemes
      rw [List.mem_singleton.mp hrule, ← hlexemes, textOf_atRule,
        ← List.append_nil ('@' :: name ++ textOf prelude)]
      exact closesIn_of_unended (hlexemes ▸ hlexed.2) hnameChars (takePrelude_prelude hprelude)
        (by rw [htext]; rfl) rfl
  | closing hprelude htext =>
      rw [hcut hprelude] at hlexed ⊢
      rw [List.mem_singleton.mp hrule, textOf_append, textOf_atRule]
      exact closesIn_of_unended hlexed.left.2 hnameChars (takePrelude_prelude hprelude)
        (by rw [htext]; rfl) rfl
  | @semicolon prelude rest text hprelude htext =>
      have hread := takePrelude_atRule hname hprelude []
      rw [hcut hprelude, List.append_cons] at hlexed ⊢
      rw [List.mem_singleton.mp hrule]
      refine ⟨_, textOf rest, textOf_append .., ?_, ?_⟩
      · have hsize := byteLength_concat_mark text .semicolon
        rw [textOf_append, textOf_atRule, ← htext, Rule.span, Nat.add_assoc, ← hsize]
        rfl
      · refine closes_of_takePrelude (hlexed.left.ofText_textOf.symm ▸ hread) ?_ rfl
        rintro inside heq
        cases heq
  | unclosed hprelude hblock =>
      rw [← hlexemes] at henclosed
      exact absurd hblock (henclosed.right.takeBlock?_ne_none hprelude)
  | media hprelude hblock htext hstop | block hprelude hblock htext hstop =>
      have hall := hcut hprelude
      rw [takeBlock?_append hblock] at hall
      rw [List.mem_singleton.mp hrule]
      refine closesIn_of_block hlexed hall (takePrelude_atRule hname hprelude)
        (takeBlock?_append_any hblock) ?_ rfl
      rw [Rule.span, hstop, htext, textOf_atRule]

theorem closesIn_ofLexeme {lexeme : Lexeme} (hlexed : Lexed (lexeme :: rest))
    (henclosed : Enclosed (lexeme :: rest))
    (hrule : rule ∈ (Step.ofLexeme start lexeme rest).item.reading.rules) :
    ClosesIn rule start (textOf (lexeme :: rest)) := by
  obtain ⟨step, hstep, hview⟩ := Step.exists_view start lexeme rest
  rw [hstep] at hrule
  cases hview with
  | @comment body stop hstop =>
      rw [List.mem_singleton.mp hrule]
      refine ⟨(Lexeme.comment body).text, textOf rest, textOf_cons .., by rw [hstop]; rfl, ?_⟩
      refine ⟨fun found hfound => ?_, fun hnone => by cases hnone⟩
      cases hfound
      rw [String.toList_ofList]
      rfl
  | @openComment body => exact absurd List.mem_cons_self (henclosed.ended body)
  | blank | brace => cases hrule
  | atRule => exact closesIn_ofAtRule hlexed henclosed.tail hrule
  | style => exact closesIn_ofStyle hlexed henclosed hrule

end Steps

end Stylesheet

theorem Rule.Placed.closes_of_mem {text : String} {clean : Prop} {children : List Rule}
    {span : Span} {part : Rule} (h : (Rule.media children span).Placed text clean)
    (hpart : part ∈ children) : part.Closes (part.text text).toList := by
  obtain ⟨before, opening, body, after, htext, hlexed, -, hblock, -, rfl, -⟩ := h.exists_block
  have henclosed : Stylesheet.Enclosed body :=
    .of_takeBlock? (hblock []) (Stylesheet.openComment_not_mem hlexed.right.2)
  obtain ⟨first, lexeme, rest, step, rfl, rfl, hmem, -⟩ :=
    Stylesheet.Reading.exists_step_of_mem hpart
  have hfirst : byteLength (before ++ textOf opening) + 1 + byteLength (textOf first) =
      byteLength (before ++ (textOf opening ++ '\x7b' :: textOf first)) := by
    simp [Text.utf8Size_leftBrace, Nat.add_assoc]
  rw [hfirst] at hmem
  obtain ⟨within, gap, hwithin, hspan, hcloses⟩ :=
    Stylesheet.closesIn_ofLexeme hlexed.right.2.left.right henclosed.right hmem
  have hplace : text.toList = (before ++ (textOf opening ++ '\x7b' :: textOf first)) ++
      (within ++ (gap ++ '\x7d' :: after)) := by
    rw [htext, textOf_append, hwithin]
    simp
  rwa [Rule.text_eq hplace hspan, String.toList_ofList]

theorem Rule.Within.exists_parent {rules children : List Rule} {span : Span} {part : Rule}
    (h : Within rules (.media children span)) (hpart : Within children part) :
    ∃ siblings span, Within rules (.media siblings span) ∧ part ∈ siblings := by
  have hall : Within rules part ∧
      ∃ siblings span, Within rules (.media siblings span) ∧ part ∈ siblings := by
    induction hpart with
    | top hmem => exact ⟨.child h hmem, children, span, h, hmem⟩
    | @child parent part _ hmem ih =>
        refine ⟨.child ih.1 hmem, ?_⟩
        cases parent with
        | media siblings span => exact ⟨siblings, span, ih.1, hmem⟩
        | style => cases hmem
        | atRule => cases hmem
        | comment => cases hmem
  exact hall.2

theorem Flaw.not_missing {flaw : Flaw} (h : flaw.isUnclosed = false) :
    ¬ "missing '*/'".toList <+: flaw.message.toList ∧
      ¬ "missing '\x7d'".toList <+: flaw.message.toList := by
  cases flaw with
  | unclosedComment => cases h
  | unclosedAtRule => cases h
  | unclosedRule => cases h
  | strayBrace => decide
  | namelessAtRule => decide
  | selectorMissing => decide
  | blockMissing => decide

namespace Stylesheet

variable {text : String} {children : List Rule} {span : Span}

/-- In a media rule, at any depth, no problem is that an end is missing: every comment and
every block that is opened in the rule is closed in it. -/
theorem closes_of_within_media (h : Rule.Within (ofText text).rules (.media children span)) :
    (∀ problem ∈ (ofText text).problems, span.Holds problem.offset →
      ¬ "missing '*/'".toList <+: problem.reason.toList ∧
        ¬ "missing '\x7d'".toList <+: problem.reason.toList) ∧
    ∀ part, Rule.Within children part → part.Closes (part.text text).toList := by
  constructor
  · intro problem hproblem hholds
    obtain ⟨found, hfound, rfl⟩ := List.mem_map.mp hproblem
    refine Flaw.not_missing ?_
    rw [← Bool.not_eq_true]
    intro hunclosed
    obtain ⟨mark, rest, -, -, hreading⟩ := Reading.exists_ofText text.toList
    change Rule.Within (Reading.ofText text.toList).rules (.media children span) at h
    rw [hreading] at h hfound
    have hstop := Reading.stop_le_of_isUnclosed (Lexeme.lexed_ofText rest) hfound hunclosed h
    exact absurd hholds.2 (Nat.not_lt.mpr hstop)
  · intro part hpart
    obtain ⟨siblings, around, hparent, hmem⟩ := h.exists_parent hpart
    exact (placed_of_within hparent).closes_of_mem hmem

theorem closes_of_within_media_parentheses :
    let text := "@media p\x7ba(\x7b)b\x7b\x7d\x7dc\x7b\x7d\x7d"
    (ofText text).problems.map (fun problem => (problem.reason, problem.offset)) =
        [("unexpected '\x7d'", 16)] ∧
      ∃ children, Rule.Within (ofText text).rules (.media children ⟨0, 21⟩) ∧
        children.map Rule.span = [⟨9, 16⟩, ⟨17, 20⟩] ∧
        (∀ problem ∈ (ofText text).problems, (⟨0, 21⟩ : Span).Holds problem.offset →
          ¬ "missing '*/'".toList <+: problem.reason.toList ∧
            ¬ "missing '\x7d'".toList <+: problem.reason.toList) ∧
        ∀ part ∈ children, part.Closes (part.text text).toList := by
  intro text
  have hproblems : (ofText text).problems.map (fun problem => (problem.reason, problem.offset)) =
      [("unexpected '\x7d'", 16)] := by decide +kernel
  have hspans : (ofText text).rules.map (fun rule => (rule.span, rule.children.map Rule.span)) =
      [(⟨0, 21⟩, [⟨9, 16⟩, ⟨17, 20⟩])] := by decide +kernel
  obtain ⟨rule, hrules, hrule⟩ := List.map_eq_singleton_iff.mp hspans
  obtain ⟨hspan, hchildren⟩ := Prod.mk.inj hrule
  cases rule with
  | media children span =>
      have hspan : span = ⟨0, 21⟩ := hspan
      have hwithin : Rule.Within (ofText text).rules (.media children ⟨0, 21⟩) :=
        .top (by rw [hrules, hspan]; exact List.mem_cons_self)
      obtain ⟨hclosed, hparts⟩ := closes_of_within_media hwithin
      exact ⟨hproblems, children, hwithin, hchildren, hclosed,
        fun part hpart => hparts part (.top hpart)⟩
  | style => cases hchildren
  | atRule => cases hchildren
  | comment => cases hchildren

end Stylesheet

end StyleSplit
