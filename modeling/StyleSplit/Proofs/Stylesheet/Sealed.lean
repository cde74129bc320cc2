import StyleSplit.Proofs.Stylesheet.Parts
import StyleSplit.Proofs.Stylesheet.Shift
import StyleSplit.Proofs.Stylesheet.Steps

/-! What a rule of a clean reading is read as when its text stands alone: the same rule.
All but the last rule are read so whatever follows them. The last may be an at-rule that
only the end of the text has ended. -/

namespace StyleSplit.Stylesheet

open Lexeme (textOf textOf_append Lexed takeQuoted takeComment?)
open Text (byteLength isNameChar isWhite trimEnd)

/-- `text` is read as one rule when `rest` follows, and `rest` as if it stood alone. -/
def ReadsAlone (text rest : List Char) (comment? : Option String) : Prop :=
  ∃ rule : Rule, rule.span = ⟨0, byteLength text⟩ ∧ rule.comment? = comment? ∧
    Reading.ofLexemes 0 (Lexeme.ofText (text ++ rest)) =
      ⟨rule :: (Reading.ofLexemes (byteLength text) (Lexeme.ofText rest)).rules,
        (Reading.ofLexemes (byteLength text) (Lexeme.ofText rest)).flaws⟩

theorem Step.Finishes.readsAlone {start : Nat} {lexeme : Lexeme} {rest : List Lexeme}
    {rule : Rule} (hlexed : Lexed (lexeme :: rest))
    (hflaws : (ofLexeme start lexeme rest).flaws = [])
    (hitem : (ofLexeme start lexeme rest).item.reading = ⟨[rule], []⟩)
    (h : (ofLexeme start lexeme rest).Finishes start (lexeme :: rest) (ofLexemes start)) :
    ∃ text, textOf (lexeme :: rest) = text ++ textOf (ofLexeme start lexeme rest).rest ∧
      rule.span = ⟨start, start + byteLength text⟩ ∧
      ∀ other, ReadsAlone text other rule.comment? := by
  obtain ⟨taken, last, htaken, hclosed, hnext, hread⟩ := h.exists_taken
  rw [List.append_cons] at htaken
  have hrule := h.span_eq rule (by rw [hitem]; exact List.mem_singleton.mpr rfl)
  rw [hnext] at hrule
  rw [htaken] at hlexed
  refine ⟨textOf (taken ++ [last]), by rw [htaken, textOf_append], hrule, ?_⟩
  intro other
  obtain ⟨first, more, hmore, hagain, -⟩ := hread (Lexeme.ofText other)
  have hshift := Step.ofLexeme_shift 0 start first more
  rw [Nat.zero_add] at hshift
  generalize hzero : Step.ofLexeme 0 first more = origin at hshift
  have hmoved := hshift.symm.trans hagain
  have hrest : origin.rest = Lexeme.ofText other := congrArg Step.rest hmoved
  have hstop : origin.next = byteLength (textOf (taken ++ [last])) := by
    have hadd : origin.next + start = start + byteLength (textOf (taken ++ [last])) :=
      (congrArg Step.next hmoved).trans hnext
    omega
  have hclean : origin.flaws = [] :=
    shiftFlaws_eq_nil.mp ((congrArg Step.flaws hmoved).trans hflaws)
  have hreading : origin.item.reading.shift start = ⟨[rule], []⟩ := by
    rw [← Item.reading_shift]
    exact (congrArg (fun step => step.item.reading) hmoved).trans hitem
  obtain ⟨found, hfound, hsame⟩ :=
    Rule.exists_of_shiftAll_eq_singleton (congrArg Reading.rules hreading)
  have hnone := shiftFlaws_eq_nil.mp (congrArg Reading.flaws hreading)
  have hplace : found.span.shift start = rule.span := by rw [← hsame, Rule.span_shift]
  refine ⟨found, ?_, by rw [← hsame, Rule.comment?_shift], ?_⟩
  · rw [hrule] at hplace
    have hfirst : found.span.start + start = start := congrArg Span.start hplace
    have hlast : found.span.stop + start =
        start + byteLength (textOf (taken ++ [last])) := congrArg Span.stop hplace
    cases hspan : found.span with
    | mk first last =>
        rw [hspan] at hfirst hlast
        congr 1 <;> dsimp only at hfirst hlast <;> omega
  · rw [hlexed.left.ofText_append hclosed, hmore, Reading.ofLexemes_cons 0 first more hzero,
      hfound, hclean, hnone, hrest, hstop]
    rfl

/-! An at-rule that the end of the text has ended. The white space after it says nothing
about where it ends: no other would end it either. -/

def AllWhite (gap : List Char) : Prop :=
  ∀ c ∈ gap, isWhite c = true

theorem AllWhite.head?_ne {gap : List Char} (h : AllWhite gap) {mark : Char}
    (hmark : isWhite mark = false) : gap.head? ≠ some mark := by
  intro hhead
  exact ne_of_class (h mark (List.mem_of_head? hhead)) hmark rfl

theorem takeQuoted_gap (mark : Char) (text : List Char) :
    (∃ rest, rest.length ≤ text.length ∧
        ∀ gap, AllWhite gap → (takeQuoted mark (text ++ gap)).2 = rest ++ gap) ∨
      ∀ gap, AllWhite gap → AllWhite (takeQuoted mark (text ++ gap)).2 := by
  have hwhite (gap : List Char) (hgap : AllWhite gap) : AllWhite (takeQuoted mark gap).2 := by
    intro c hc
    refine hgap c ?_
    rw [← Lexeme.takeQuoted_append mark gap]
    exact List.mem_append_right _ hc
  fun_induction takeQuoted mark text with
  | case1 => exact .inr hwhite
  | case2 =>
      refine .inr fun gap hgap => ?_
      cases gap with
      | nil => exact hgap
      | cons c gap => exact hwhite gap (List.forall_mem_cons.mp hgap).2
  | case3 c text _ _ _ ih =>
      rcases ih with ⟨rest, hlength, htake⟩ | hall
      · exact .inl ⟨rest, Nat.le_succ_of_le (Nat.le_succ_of_le hlength), htake⟩
      · exact .inr hall
  | case4 text _ _ =>
      refine .inl ⟨'\n' :: text, Nat.le_refl _, fun gap _ => ?_⟩
      rw [List.cons_append, Lexeme.takeQuoted_cons (by decide), if_pos rfl]
  | case5 text hend hescape hline =>
      refine .inl ⟨text, Nat.le_succ _, fun gap _ => ?_⟩
      rw [List.cons_append, Lexeme.takeQuoted_cons (Lexeme.ne_backslash hend hescape),
        if_neg hline, if_pos rfl]
  | case6 c text hend hescape hline hmark _ _ _ ih =>
      have hcons (gap : List Char) :
          (takeQuoted mark (c :: text ++ gap)).2 = (takeQuoted mark (text ++ gap)).2 := by
        rw [List.cons_append, Lexeme.takeQuoted_cons (Lexeme.ne_backslash hend hescape),
          if_neg hline, if_neg hmark]
      rcases ih with ⟨rest, hlength, htake⟩ | hall
      · refine .inl ⟨rest, Nat.le_succ_of_le hlength, fun gap hgap => ?_⟩
        rw [hcons, htake gap hgap]
      · refine .inr fun gap hgap => ?_
        rw [hcons]
        exact hall gap hgap

theorem takeComment?_gap (text : List Char) :
    (∃ body rest, rest.length ≤ text.length ∧
        ∀ gap, AllWhite gap → takeComment? (text ++ gap) = some (body, rest ++ gap)) ∨
      ∀ gap, AllWhite gap → takeComment? (text ++ gap) = none := by
  induction text with
  | nil =>
      refine .inr fun gap hgap => ?_
      induction gap with
      | nil => rfl
      | cons c gap ih =>
          obtain ⟨hc, hgap⟩ := List.forall_mem_cons.mp hgap
          have hnot : ¬ (c = '*' ∧ gap.head? = some '/') :=
            fun h => ne_of_class hc (by decide) h.1
          rw [List.nil_append] at ih ⊢
          rw [Lexeme.takeComment?_cons hnot, ih hgap]
          rfl
  | cons c text ih =>
      by_cases hend : c = '*' ∧ text.head? = some '/'
      · obtain ⟨rfl, hslash⟩ := hend
        obtain ⟨rest, rfl⟩ := List.head?_eq_some_iff.mp hslash
        exact .inl ⟨[], rest, by simp; omega, fun gap _ => rfl⟩
      · have hnot {gap : List Char} (hgap : AllWhite gap) :
            ¬ (c = '*' ∧ (text ++ gap).head? = some '/') := by
          rintro ⟨hc, hslash⟩
          cases text with
          | nil => exact hgap.head?_ne (by decide) hslash
          | cons d text => exact hend ⟨hc, hslash⟩
        rcases ih with ⟨body, rest, hlength, htake⟩ | hnone
        · refine .inl ⟨c :: body, rest, Nat.le_succ_of_le hlength, fun gap hgap => ?_⟩
          rw [List.cons_append, Lexeme.takeComment?_cons (hnot hgap), htake gap hgap]
          rfl
        · refine .inr fun gap hgap => ?_
          rw [List.cons_append, Lexeme.takeComment?_cons (hnot hgap), hnone gap hgap]
          rfl

/-- The text has no stop outside parentheses, strings, comments and escapes. -/
def Unended (depth : Nat) (text : List Char) : Prop :=
  (takePrelude depth (Lexeme.ofText text)).2 = none

section Unended

variable {depth : Nat} {c : Char} {text : List Char}

theorem takePrelude_plain_eq_none {lexemes : List Lexeme} :
    (takePrelude depth (.plain c :: lexemes)).2 = none ↔
      ¬ (depth = 0 ∧ (Stop.ofChar? c).isSome) ∧
        (takePrelude (parensAfter depth c) lexemes).2 = none := by
  rw [takePrelude]
  by_cases hdepth : depth = 0
  · rw [if_pos hdepth]
    cases hstop : Stop.ofChar? c <;> simp [hdepth]
  · simp [hdepth]

theorem takePrelude_other {lexeme : Lexeme} (hplain : ∀ c, lexeme ≠ .plain c)
    (lexemes : List Lexeme) :
    (takePrelude depth (lexeme :: lexemes)).2 = (takePrelude depth lexemes).2 := by
  rw [takePrelude]
  exact hplain

theorem unended_plain (hescape : c ≠ '\\') (hquote : ¬ (c = '"' ∨ c = '\''))
    (hcomment : ¬ (c = '/' ∧ text.head? = some '*')) :
    Unended depth (c :: text) ↔
      ¬ (depth = 0 ∧ (Stop.ofChar? c).isSome) ∧ Unended (parensAfter depth c) text := by
  rw [Unended, Lexeme.ofText_plain hescape hquote hcomment, takePrelude_plain_eq_none]
  rfl

theorem unended_escape : Unended depth ('\\' :: text) ↔ Unended depth text.tail := by
  cases text with
  | nil => simp [Unended, Lexeme.ofText, takePrelude]
  | cons c text =>
      rw [Unended, Lexeme.ofText_escape, takePrelude_other (by simp)]
      rfl

theorem unended_quoted (hquote : c = '"' ∨ c = '\'') :
    Unended depth (c :: text) ↔ Unended depth (takeQuoted c text).2 := by
  rw [Unended, Lexeme.ofText_quoted hquote, takePrelude_other (by simp)]
  rfl

theorem unended_comment {body rest : List Char} (h : takeComment? text = some (body, rest)) :
    Unended depth ('/' :: '*' :: text) ↔ Unended depth rest := by
  rw [Unended, Lexeme.ofText_comment h, takePrelude_other (by simp)]
  rfl

theorem unended_openComment (h : takeComment? text = none) :
    Unended depth ('/' :: '*' :: text) := by
  rw [Unended, Lexeme.ofText_openComment h]
  rfl

theorem AllWhite.unended {gap : List Char} (h : AllWhite gap) : Unended depth gap := by
  induction gap generalizing depth with
  | nil => simp [Unended, Lexeme.ofText, takePrelude]
  | cons c gap ih =>
      obtain ⟨hc, hgap⟩ := List.forall_mem_cons.mp h
      have hne {mark : Char} (hmark : isWhite mark = false) : c ≠ mark := ne_of_class hc hmark
      have hquote : ¬ (c = '"' ∨ c = '\'') := not_or_intro (hne (by decide)) (hne (by decide))
      rw [unended_plain (hne (by decide)) hquote fun hslash => hne (by decide) hslash.1,
        Stop.ofChar?, if_neg (hne (by decide)), if_neg (hne (by decide)), if_neg (hne (by decide))]
      exact ⟨by simp, ih hgap⟩

/-- White space can be exchanged for other white space at the end. -/
theorem Unended.of_gap {gap other : List Char} (hgap : AllWhite gap) (hother : AllWhite other)
    (h : Unended depth (text ++ gap)) : Unended depth (text ++ other) := by
  -- By length: a string or a comment leaves a shorter text, if it ends before the gap.
  induction hlength : text.length using Nat.strongRecOn generalizing depth text with
  | ind length ih =>
      subst hlength
      cases text with
      | nil => exact hother.unended
      | cons c text =>
          rw [List.cons_append] at h ⊢
          by_cases hescape : c = '\\'
          · subst hescape
            rw [unended_escape] at h ⊢
            cases text with
            | nil => exact AllWhite.unended fun c hc => hother c (List.mem_of_mem_tail hc)
            | cons d text => exact ih _ (by simp) h rfl
          · by_cases hquote : c = '"' ∨ c = '\''
            · rw [unended_quoted hquote] at h ⊢
              rcases takeQuoted_gap c text with ⟨rest, hlength, htake⟩ | hwhite
              · rw [htake _ hgap] at h
                rw [htake _ hother]
                exact ih _ (by simp; omega) h rfl
              · exact (hwhite _ hother).unended
            · by_cases hcomment : c = '/' ∧ text.head? = some '*'
              · obtain ⟨rfl, hstar⟩ := hcomment
                obtain ⟨text, rfl⟩ := List.head?_eq_some_iff.mp hstar
                rcases takeComment?_gap text with ⟨body, rest, hlength, htake⟩ | hnone
                · rw [List.cons_append, unended_comment (htake _ hgap)] at h
                  rw [List.cons_append, unended_comment (htake _ hother)]
                  exact ih _ (by simp; omega) h rfl
                · exact unended_openComment (hnone _ hother)
              · have hplain {more : List Char} (hmore : AllWhite more) :
                    ¬ (c = '/' ∧ (text ++ more).head? = some '*') := by
                  rintro ⟨hslash, hstar⟩
                  cases text with
                  | nil => exact hmore.head?_ne (by decide) hstar
                  | cons d text => exact hcomment ⟨hslash, hstar⟩
                rw [unended_plain hescape hquote (hplain hgap)] at h
                rw [unended_plain hescape hquote (hplain hother)]
                exact ⟨h.1, ih _ (Nat.lt_succ_self _) h.2 rfl⟩

end Unended

theorem trimEnd_trimEnd_newline (text : List Char) :
    trimEnd (trimEnd text ++ ['\n']) = trimEnd text := by
  have hrdrop (text : List Char) : trimEnd text = text.rdropWhile isWhite := rfl
  simp only [hrdrop]
  rw [List.rdropWhile_concat_pos _ _ _ (by decide), List.rdropWhile_idempotent]

theorem isWhite_of_isNameChar {c : Char} (hc : isNameChar c = true) : isWhite c = false := by
  have hcode := toNat_of_isNameChar hc
  simp only [isWhite, Bool.or_eq_false_iff, Bool.and_eq_false_imp, decide_eq_true_eq,
    decide_eq_false_iff_not, beq_eq_false_iff_ne]
  omega

theorem ofText_of_isNameChar {c : Char} (hc : isNameChar c = true) (text : List Char) :
    Lexeme.ofText (c :: text) = .plain c :: Lexeme.ofText text := by
  have hne {mark : Char} (hmark : isNameChar mark = false) : c ≠ mark := ne_of_class hc hmark
  exact Lexeme.ofText_plain (hne (by decide)) (not_or_intro (hne (by decide)) (hne (by decide)))
    fun hslash => hne (by decide) hslash.1

theorem ofText_at (text : List Char) :
    Lexeme.ofText ('@' :: text) = .plain '@' :: Lexeme.ofText text :=
  Lexeme.ofText_plain (by decide) (by decide) fun hslash => absurd hslash.1 (by decide)

theorem takeName_cons {c : Char} (hc : isNameChar c = true) (lexemes : List Lexeme) :
    takeName (.plain c :: lexemes) = (c :: (takeName lexemes).1, (takeName lexemes).2) := by
  rw [takeName, if_pos hc]

theorem takeName_ofText_ne_nil {text : List Char} :
    (takeName (Lexeme.ofText text)).1 ≠ [] ↔ ∃ c ∈ text.head?, isNameChar c = true := by
  constructor
  · intro hname
    obtain ⟨c, name, hcons⟩ := List.exists_cons_of_ne_nil hname
    have hc := isNameChar_of_takeName (rfl : takeName (Lexeme.ofText text) = (_, _)) c
      (by rw [hcons]; exact List.mem_cons_self)
    have htext := textOf_takeName (Lexeme.ofText text)
    rw [Lexeme.textOf_ofText, hcons] at htext
    exact ⟨c, by rw [htext]; rfl, hc⟩
  · rintro ⟨c, hhead, hc⟩
    obtain ⟨rest, rfl⟩ := List.head?_eq_some_iff.mp hhead
    rw [ofText_of_isNameChar hc, takeName_cons hc]
    exact List.cons_ne_nil _ _

theorem unended_iff_takeName {depth : Nat} (lexemes : List Lexeme) :
    (takePrelude depth lexemes).2 = none ↔ (takePrelude depth (takeName lexemes).2).2 = none := by
  have hname := isNameChar_of_takeName (rfl : takeName lexemes = (_, _))
  conv_lhs => rw [← takeName_append lexemes, takePrelude_map_plain hname]

theorem ofLexemes_newline_cons (start : Nat) (text : List Char) :
    Reading.ofLexemes start (Lexeme.ofText ('\n' :: text)) =
      Reading.ofLexemes (start + 1) (Lexeme.ofText text) := by
  have hlexemes : Lexeme.ofText ('\n' :: text) = .plain '\n' :: Lexeme.ofText text :=
    Lexeme.ofText_plain (by decide) (by decide) (by simp)
  have hstep : Step.ofLexeme start (.plain '\n') (Lexeme.ofText text) =
      ⟨.nothing, [], start + 1, Lexeme.ofText text⟩ := rfl
  rw [hlexemes, Reading.ofLexemes_cons _ _ _ hstep]
  rfl

theorem ofLexemes_newline (start : Nat) :
    Reading.ofLexemes start (Lexeme.ofText ['\n']) = {} := by
  rw [ofLexemes_newline_cons, Lexeme.ofText, Reading.ofLexemes]

theorem Step.ofAtRule_unended (start : Nat) {lexemes : List Lexeme}
    (hending : (takePrelude 0 (takeName lexemes).2).2 = none) :
    ofAtRule start lexemes =
      ⟨.rule (.atRule (.ofList (takeName lexemes).1)
          ⟨start, start + byteLength (trimEnd ('@' :: textOf lexemes))⟩),
        if (takeName lexemes).1 = [] then [(start, .namelessAtRule)] else [],
        start + byteLength ('@' :: textOf lexemes), []⟩ := by
  obtain ⟨name, tail, htake⟩ : ∃ name tail, takeName lexemes = (name, tail) := ⟨_, _, rfl⟩
  rw [htake] at hending ⊢
  obtain ⟨prelude, hprelude⟩ : ∃ prelude, takePrelude 0 tail = (prelude, none) :=
    ⟨_, Prod.ext rfl hending⟩
  have htext : '@' :: textOf lexemes = '@' :: name ++ textOf prelude := by
    rw [textOf_takeName lexemes, htake, takePrelude_eq_none hprelude]
    rfl
  exact ofAtRule_eq htake (.unended hprelude htext)

/-- An at-rule that only the end of its text has ended. -/
def OpenEnded (text : List Char) : Prop :=
  ∃ within, text = '@' :: within ∧ Unended 0 within

theorem exists_unended {lexemes : List Lexeme} (hlexed : Lexed lexemes)
    (hending : (takePrelude 0 (takeName lexemes).2).2 = none) :
    ∃ within gap, trimEnd ('@' :: textOf lexemes) = '@' :: within ∧
      textOf lexemes = within ++ gap ∧ AllWhite gap ∧
      ∀ other, AllWhite other → Unended 0 (within ++ other) := by
  obtain ⟨gap, hgap, hwhite⟩ := exists_trimEnd ('@' :: textOf lexemes)
  cases htrim : trimEnd ('@' :: textOf lexemes) with
  | nil => exact absurd htrim (trimEnd_ne_nil (by decide))
  | cons c within =>
      rw [htrim, List.cons_append] at hgap
      obtain ⟨rfl, htext⟩ := List.cons.inj hgap
      refine ⟨within, gap, rfl, htext, hwhite, fun other hother => ?_⟩
      refine Unended.of_gap hwhite hother ?_
      rw [Unended, ← htext, hlexed.ofText_textOf, unended_iff_takeName]
      exact hending

theorem readsAlone_trimEnd {lexemes : List Lexeme} (hlexed : Lexed lexemes)
    (hname : (takeName lexemes).1 ≠ [])
    (hending : (takePrelude 0 (takeName lexemes).2).2 = none) :
    ReadsAlone (trimEnd ('@' :: textOf lexemes)) ['\n'] none := by
  obtain ⟨within, gap, hwithin, htext, hwhite, hopen⟩ := exists_unended hlexed hending
  have hagain : (takeName (Lexeme.ofText (within ++ ['\n']))).1 ≠ [] := by
    rw [← hlexed.ofText_textOf, takeName_ofText_ne_nil, htext] at hname
    rw [takeName_ofText_ne_nil]
    obtain ⟨c, hhead, hc⟩ := hname
    cases within with
    | nil =>
        have hblank := hwhite c (List.mem_of_head? hhead)
        rw [isWhite_of_isNameChar hc] at hblank
        cases hblank
    | cons d within => exact ⟨c, hhead, hc⟩
  have hunended := hopen ['\n'] (by simp [AllWhite]; decide)
  rw [Unended, unended_iff_takeName] at hunended
  have hstep : Step.ofLexeme 0 (.plain '@') (Lexeme.ofText (within ++ ['\n'])) = _ :=
    Step.ofAtRule_unended 0 hunended
  have hsize : trimEnd ('@' :: (within ++ ['\n'])) = '@' :: within := by
    have htrim := trimEnd_trimEnd_newline ('@' :: textOf lexemes)
    rwa [hwithin] at htrim
  rw [Lexeme.textOf_ofText, hsize, Nat.zero_add, if_neg hagain] at hstep
  rw [hwithin]
  refine ⟨.atRule (.ofList (takeName (Lexeme.ofText (within ++ ['\n']))).1)
    ⟨0, byteLength ('@' :: within)⟩, rfl, rfl, ?_⟩
  rw [List.cons_append, ofText_at, Reading.ofLexemes_cons _ _ _ hstep, ofLexemes_newline,
    Reading.ofLexemes]
  rfl

theorem Step.takeName_ne_nil {start : Nat} {lexemes : List Lexeme}
    (hflaws : (ofLexeme start (.plain '@') lexemes).flaws = [])
    (hending : (takePrelude 0 (takeName lexemes).2).2 = none) : (takeName lexemes).1 ≠ [] := by
  intro hnone
  rw [ofLexeme_at, ofAtRule_unended start hending, if_pos hnone] at hflaws
  cases hflaws

theorem Step.readsAlone_of_unended {start : Nat} {lexemes : List Lexeme} (hlexed : Lexed lexemes)
    (hflaws : (ofLexeme start (.plain '@') lexemes).flaws = [])
    (hending : (takePrelude 0 (takeName lexemes).2).2 = none) :
    ∃ name text gap, ofLexeme start (.plain '@') lexemes =
        ⟨.rule (.atRule name ⟨start, start + byteLength text⟩), [],
          start + byteLength ('@' :: textOf lexemes), []⟩ ∧
      '@' :: textOf lexemes = text ++ gap ∧ ReadsAlone text ['\n'] none ∧ OpenEnded text := by
  have hstep : ofLexeme start (.plain '@') lexemes = _ := ofAtRule_unended start hending
  obtain ⟨within, gap, hwithin, htext, -, hopen⟩ := exists_unended hlexed hending
  have hunended := hopen [] (List.forall_mem_nil _)
  rw [List.append_nil] at hunended
  have hgap : '@' :: textOf lexemes = trimEnd ('@' :: textOf lexemes) ++ gap := by
    rw [hwithin, htext, List.cons_append]
  have hname := takeName_ne_nil hflaws hending
  rw [hstep, if_neg hname]
  exact ⟨_, _, gap, rfl, hgap, readsAlone_trimEnd hlexed hname hending,
    within, hwithin, hunended⟩

theorem Item.reading_cases {item : Item} (h : item.reading.flaws = []) :
    item.reading = {} ∨ ∃ rule, item.reading = ⟨[rule], []⟩ := by
  cases item with
  | nothing => exact .inl rfl
  | rule found => exact .inr ⟨found, rfl⟩
  | media bodyStart body span =>
      refine .inr ⟨.media (Reading.ofLexemes bodyStart body).rules span, ?_⟩
      exact congrArg (Reading.mk _) h

/-- In a clean reading every rule but the last is read alone whatever follows it. So is the
last, unless only the end of the text has ended it; then a line feed may follow. -/
theorem Reading.readsAlone {text : String} {before : List Char} {lexemes : List Lexeme}
    (htext : text.toList = before ++ textOf lexemes) (hlexed : Lexed lexemes)
    (hclean : (ofLexemes (byteLength before) lexemes).flaws = []) :
    ((ofLexemes (byteLength before) lexemes).rules.Pairwise fun first _ =>
        ∀ rest, ReadsAlone (first.text text).toList rest first.comment?) ∧
      ∀ rule ∈ (ofLexemes (byteLength before) lexemes).rules,
        ReadsAlone (rule.text text).toList ['\n'] rule.comment? ∧
          ((∀ rest, ReadsAlone (rule.text text).toList rest rule.comment?) ∨
            OpenEnded (rule.text text).toList) := by
  generalize hstart : byteLength before = start at *
  induction start, lexemes using Reading.induction generalizing before with
  | nil => simp [ofLexemes]
  | cons start lexeme lexemes _ ih =>
      subst hstart
      obtain ⟨hflaws, hblock, hfollowing⟩ := flaws_cons_eq_nil rfl hclean
      obtain ⟨taken, htaken, -, hreads⟩ := Step.exists_taken (byteLength before) lexeme lexemes
      have hcut : text.toList = (before ++ textOf taken) ++
          textOf (Step.ofLexeme (byteLength before) lexeme lexemes).rest := by
        rw [List.append_assoc, ← textOf_append, ← htaken, htext]
      have hnext : byteLength (before ++ textOf taken) =
          (Step.ofLexeme (byteLength before) lexeme lexemes).next := by
        rw [hreads.next_eq, Text.byteLength_append]
      obtain ⟨hpairwise, hall⟩ := ih hcut (htaken ▸ hlexed).right hnext hfollowing
      rw [ofLexemes_cons _ _ _ rfl]
      rcases Step.finishes_ofLexeme hflaws with ⟨rfl, hending⟩ | hfinishes
      · obtain ⟨name, piece, gap, hlast, hpiece, hread, hopen⟩ :=
          Step.readsAlone_of_unended hlexed.2 hflaws hending
        have hpart : text.toList = before ++ (piece ++ gap) := by
          rw [← hpiece]
          exact htext
        have hrules :
            ofLexemes (byteLength before + byteLength ('@' :: textOf lexemes)) [] = {} := by
          rw [ofLexemes]
        rw [hlast, hrules]
        dsimp only [Item.reading]
        rw [List.append_nil, List.forall_mem_singleton, Rule.text_eq hpart rfl,
          String.toList_ofList]
        exact ⟨List.pairwise_singleton .., hread, .inr hopen⟩
      · rcases Item.reading_cases hblock with hnone | ⟨rule, hone⟩
        · rw [hnone]
          exact ⟨hpairwise, hall⟩
        · obtain ⟨piece, hpiece, hspan, hread⟩ := hfinishes.readsAlone hlexed hflaws hone
          rw [hpiece] at htext
          rw [hone, List.singleton_append, List.pairwise_cons, List.forall_mem_cons,
            Rule.text_eq htext hspan, String.toList_ofList]
          exact ⟨⟨fun _ _ => hread, hpairwise⟩, ⟨hread _, .inl hread⟩, hall⟩

end StyleSplit.Stylesheet
