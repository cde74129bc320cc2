import StyleSplit.Proofs.Stylesheet.Ended

/-! A comment without an end is accepted in one place only: in an at-rule that nothing else
has ended. -/

namespace StyleSplit.Stylesheet

open Lexeme (textOf textOf_append textOf_cons Lexed)
open Text (byteLength isNameChar)

theorem takePrelude_concat {depth : Nat} {lexemes : List Lexeme} {c : Char}
    (hc : Stop.ofChar? c = none) (h : (takePrelude depth lexemes).2 = none) :
    (takePrelude depth (lexemes ++ [.plain c])).2 = none := by
  induction lexemes generalizing depth with
  | nil => simp [hc, takePrelude]
  | cons lexeme lexemes ih =>
      rw [List.cons_append]
      by_cases hplain : ∃ d, lexeme = .plain d
      · obtain ⟨d, rfl⟩ := hplain
        rw [takePrelude_plain_eq_none] at h ⊢
        exact ⟨h.1, ih h.2⟩
      · have hother : ∀ d, lexeme ≠ .plain d := fun d heq => hplain ⟨d, heq⟩
        rw [takePrelude_other hother] at h ⊢
        exact ih h

theorem Ended.not_openEnded {text : String} {before after : List Char} {lexemes : List Lexeme}
    {rule : Rule} (h : Ended (byteLength before) lexemes)
    (htext : text.toList = before ++ (textOf lexemes ++ after)) (hlexed : Lexed lexemes)
    (hrule : rule ∈ (Reading.ofLexemes (byteLength before) lexemes).rules) :
    ¬ OpenEnded (rule.text text).toList := by
  generalize hstart : byteLength before = start at h hrule
  induction h generalizing before with
  | nil => simp [Reading.ofLexemes] at hrule
  | @cons start lexeme rest _ _ finishes _ ih =>
      subst hstart
      obtain ⟨taken, last, htaken, -, hnext, hread⟩ := finishes.exists_taken
      rw [htaken, List.append_cons] at htext hlexed
      rw [textOf_append, List.append_assoc] at htext
      rw [Reading.ofLexemes_cons _ lexeme rest rfl] at hrule
      rcases List.mem_append.mp hrule with hitem | hfollowing
      · rintro ⟨within, hwithin, hopen⟩
        have hspan := finishes.span_eq rule hitem
        rw [hnext] at hspan
        rw [Rule.text_eq htext hspan, String.toList_ofList] at hwithin
        have hinside : taken ++ [last] = .plain '@' :: Lexeme.ofText within := by
          rw [← hlexed.left.ofText_textOf, hwithin, ofText_at]
        obtain ⟨first, more, hmore, hstep, -⟩ := hread [.plain 'a']
        rw [List.append_cons, hinside, List.cons_append] at hmore
        obtain ⟨rfl, rfl⟩ := List.cons.inj hmore
        have hending := takePrelude_concat (by decide : Stop.ofChar? 'a' = none) hopen
        rw [unended_iff_takeName] at hending
        rw [Step.ofLexeme_at, Step.ofAtRule_unended _ hending] at hstep
        cases congrArg Step.rest hstep
      · have hcut : text.toList = (before ++ textOf (taken ++ [last])) ++
            (textOf (Step.ofLexeme (byteLength before) lexeme rest).rest ++ after) := by
          rw [htext, List.append_assoc]
        exact ih hcut hlexed.right (by rw [Text.byteLength_append, hnext]) hfollowing

theorem Ended.openComment_not_mem {start : Nat} {lexemes : List Lexeme} (h : Ended start lexemes)
    (hlexed : Lexed lexemes) (body : List Char) : .openComment body ∉ lexemes := by
  intro hmem
  obtain ⟨first, second, rfl⟩ := List.append_of_mem hmem
  have hnil : second = [] := textOf_eq_nil hlexed.right.1.1
  rw [hnil] at h
  exact h.isClosed List.getLast?_concat

theorem Marks.mem_ofText {mark rest : List Char} {lexeme : Lexeme} (h : Marks mark rest)
    (hmem : lexeme ∈ Lexeme.ofText (mark ++ rest)) :
    lexeme = .plain '\ufeff' ∨ lexeme ∈ Lexeme.ofText rest := by
  rcases h with rfl | ⟨rfl, -⟩
  · rw [List.singleton_append, Lexeme.ofText_plain (by decide) (by decide)
      fun hslash => absurd hslash.1 (by decide)] at hmem
    exact List.mem_cons.mp hmem
  · exact .inr hmem

theorem isClean_of_flaws {text : String} (h : (Reading.ofText text.toList).flaws = []) :
    (ofText text).isClean = true := by
  rw [isClean, ofText, h]
  rfl

theorem Ended.complete {mark : List Char} {lexemes : List Lexeme}
    (h : Ended (byteLength mark) lexemes) (hmarks : Marks mark (textOf lexemes))
    (hlexed : Lexed lexemes) : Complete (.ofList (mark ++ textOf lexemes)) := by
  have hread : Reading.ofText (String.ofList (mark ++ textOf lexemes)).toList =
      Reading.ofLexemes (byteLength mark) lexemes := by
    rw [String.toList_ofList, hmarks.ofText, hlexed.ofText_textOf]
  refine ⟨isClean_of_flaws (by rw [hread, h.flaws_eq_nil]), fun name span hlast => ?_⟩
  have hmem : Rule.atRule name span ∈ (Reading.ofLexemes (byteLength mark) lexemes).rules := by
    rw [← hread]
    exact List.mem_of_getLast? hlast
  exact h.not_openEnded (by rw [String.toList_ofList, List.append_nil]) hlexed hmem

/-- A text in which a comment has no end is accepted exactly where an at-rule takes the
comment in, after a text that is complete. -/
theorem isClean_iff_of_openComment {text : String} {body : List Char}
    (h : .openComment body ∈ Lexeme.ofText text.toList) :
    (ofText text).isClean = true ↔
      ∃ before within, text.toList = before ++ '@' :: within ∧ Complete (.ofList before) ∧
        (∃ c ∈ within.head?, isNameChar c = true) ∧ Unended 0 within := by
  constructor
  · intro hclean
    obtain ⟨mark, rest, htext, hmarks⟩ := exists_marks text.toList
    have hflaws := flaws_eq_nil hclean
    have hlexed := Lexeme.lexed_ofText rest
    rw [htext, hmarks.ofText] at hflaws
    rw [htext] at h
    rcases Reading.ended_or_unended hflaws with
      hended | ⟨before, inside, hcut, hended, hname, hending⟩
    · have hmem := (hmarks.mem_ofText h).resolve_left Lexeme.noConfusion
      exact absurd hmem (hended.openComment_not_mem hlexed body)
    · have hrest : rest = textOf before ++ '@' :: textOf inside := by
        rw [← Lexeme.textOf_ofText rest, hcut, textOf_append, textOf_cons]
        rfl
      rw [hcut] at hlexed
      rw [hrest] at hmarks
      rw [← hlexed.right.2.ofText_textOf] at hname hending
      refine ⟨mark ++ textOf before, textOf inside, ?_, ?_, takeName_ofText_ne_nil.mp hname, ?_⟩
      · rw [htext, hrest, List.append_assoc]
      · exact hended.complete hmarks.left hlexed.left
      · exact (unended_iff_takeName _).mpr hending
  · rintro ⟨before, within, htext, hcomplete, hname, hopen⟩
    obtain ⟨mark, rest, hbefore, hmarks⟩ := exists_marks before
    have hended := hcomplete.ended_ofText (by rw [String.toList_ofList, hbefore]) hmarks
    have hall : Marks mark (rest ++ '@' :: within) := hmarks.append (by simp)
    have hstep := Step.ofAtRule_unended (byteLength mark + byteLength (textOf (Lexeme.ofText rest)))
      ((unended_iff_takeName _).mp hopen)
    rw [if_neg (takeName_ofText_ne_nil.mpr hname), ← Step.ofLexeme_at] at hstep
    refine isClean_of_flaws ?_
    rw [htext, hbefore, List.append_assoc, hall.ofText, hended.ofText_append, ofText_at,
      hended.ofLexemes_append, Reading.ofLexemes_cons _ _ _ hstep, Reading.ofLexemes]
    rfl

theorem isClean_iff_of_openComment_prelude :
    let text := "b\x7b\x7d@a (;/*x"
    .openComment ['x'] ∈ Lexeme.ofText text.toList ∧ (ofText text).isClean = true ∧
      ∃ before within, text.toList = before ++ '@' :: within ∧ Complete (.ofList before) ∧
        (∃ c ∈ within.head?, isNameChar c = true) ∧ Unended 0 within := by
  intro text
  have hmem : .openComment ['x'] ∈ Lexeme.ofText text.toList := by decide +kernel
  have hclean : (ofText text).isClean = true := by decide +kernel
  exact ⟨hmem, hclean, (isClean_iff_of_openComment hmem).mp hclean⟩

/-- The end of the text may end an at-rule, and with it a comment. -/
theorem clean_of_openComment :
    .openComment [] ∈ Lexeme.ofText "@a /*".toList ∧ (ofText "@a /*").problems = [] := by
  decide +kernel

end StyleSplit.Stylesheet
