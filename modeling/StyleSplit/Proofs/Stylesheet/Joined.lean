import StyleSplit.Proofs.Stylesheet.Sealed

/-! The texts of rules, joined as they are, are read as these rules, and what follows them
as if it stood alone. -/

namespace StyleSplit.Stylesheet

open Lexeme (textOf takeComment?)
open Text (byteLength)

theorem ReadsAlone.ofLexemes {text rest : List Char} {comment? : Option String}
    (h : ReadsAlone text rest comment?) (start : Nat) :
    ∃ rule : Rule, rule.span = ⟨start, start + byteLength text⟩ ∧ rule.comment? = comment? ∧
      Reading.ofLexemes start (Lexeme.ofText (text ++ rest)) =
        ⟨rule :: (Reading.ofLexemes (start + byteLength text) (Lexeme.ofText rest)).rules,
          (Reading.ofLexemes (start + byteLength text) (Lexeme.ofText rest)).flaws⟩ := by
  obtain ⟨rule, hspan, hcomment, hread⟩ := h
  refine ⟨rule.shift start, ?_, ?_, ?_⟩
  · rw [Rule.span_shift, hspan, Span.shift]
    congr 1
    · exact Nat.zero_add start
    · exact Nat.add_comm ..
  · rw [Rule.comment?_shift, hcomment]
  · have hshift := Reading.ofLexemes_shift 0 start (Lexeme.ofText (text ++ rest))
    rw [Nat.zero_add, hread] at hshift
    rw [hshift, Nat.add_comm start, Reading.ofLexemes_shift]
    rfl

theorem Reading.ofLexemes_joined {text css : String} {before tail : List Char}
    {rules : List Rule}
    (hcss : css.toList = before ++ (rules.flatMap (fun rule => (rule.text text).toList) ++ tail))
    (hsealed : rules.Pairwise fun first _ =>
      ∀ rest, ReadsAlone (first.text text).toList rest first.comment?)
    (hlast : ∀ rule, rules.getLast? = some rule →
      ReadsAlone (rule.text text).toList tail rule.comment?) :
    ∃ again, ofLexemes (byteLength before) (Lexeme.ofText
        (rules.flatMap (fun rule => (rule.text text).toList) ++ tail)) =
        ⟨again ++ (ofLexemes (byteLength (before ++ rules.flatMap
            fun rule => (rule.text text).toList)) (Lexeme.ofText tail)).rules,
          (ofLexemes (byteLength (before ++ rules.flatMap
            fun rule => (rule.text text).toList)) (Lexeme.ofText tail)).flaws⟩ ∧
      again.map (fun rule => (rule.text css, rule.comment?)) =
        rules.map fun rule => (rule.text text, rule.comment?) := by
  induction rules generalizing before with
  | nil => exact ⟨[], by rw [List.flatMap_nil, List.append_nil]; rfl, rfl⟩
  | cons rule rules ih =>
      obtain ⟨hrule, hsealed⟩ := List.pairwise_cons.mp hsealed
      rw [List.flatMap_cons, List.append_assoc] at hcss ⊢
      have hrest : ∀ last, rules.getLast? = some last →
          ReadsAlone (last.text text).toList tail last.comment? := by
        intro last hlastOf
        exact hlast last (by rw [List.getLast?_cons, hlastOf]; rfl)
      obtain ⟨again, hagain, htexts⟩ := ih (hcss.trans (List.append_assoc ..).symm) hsealed hrest
      have hfirst : ReadsAlone (rule.text text).toList
          (rules.flatMap (fun rule => (rule.text text).toList) ++ tail) rule.comment? := by
        cases rules with
        | nil => exact hlast rule rfl
        | cons next rules => exact hrule next List.mem_cons_self _
      obtain ⟨found, hspan, hcomment, hfound⟩ := hfirst.ofLexemes (byteLength before)
      rw [← Text.byteLength_append, hagain] at hfound
      refine ⟨found :: again, ?_, ?_⟩
      · rw [hfound, List.append_assoc]
        rfl
      · rw [List.map_cons, List.map_cons, htexts, Rule.text_eq hcss hspan, hcomment,
          String.ofList_toList]

theorem not_mem_text {text : String} {before rest : List Char} {c : Char} {rule : Rule}
    (htext : text.toList = before ++ rest) (hc : c ∉ rest)
    (hrule : rule ∈ (Reading.ofLexemes (byteLength before) (Lexeme.ofText rest)).rules) :
    c ∉ (rule.text text).toList := by
  have hlayout := Reading.layout_ofLexemes (byteLength before) (Lexeme.ofText rest)
  rw [Lexeme.textOf_ofText] at hlayout
  obtain ⟨first, piece, last, rfl, hcovers⟩ := hlayout.exists_covers hrule
  rw [← Text.byteLength_append] at hcovers
  rw [← List.append_assoc] at htext
  rw [Rule.text_eq htext hcovers.span_eq, String.toList_ofList]
  intro hmem
  exact hc (List.mem_append_right _ (List.mem_append_left _ hmem))

theorem readsAlone_of_isClean {text : String} (hclean : (ofText text).isClean = true)
    (hmark : '\ufeff' ∉ text.toList.tail) :
    ((ofText text).rules.Pairwise fun first _ =>
        ∀ rest, ReadsAlone (first.text text).toList rest first.comment?) ∧
      ∀ rule ∈ (ofText text).rules, '\ufeff' ∉ (rule.text text).toList ∧
        ReadsAlone (rule.text text).toList ['\n'] rule.comment? ∧
        ((∀ rest, ReadsAlone (rule.text text).toList rest rule.comment?) ∨
          OpenEnded (rule.text text).toList) := by
  obtain ⟨before, rest, htext, hrest, hreading⟩ := Reading.exists_unmarked hmark
  have hall : (ofText text).rules =
      (Reading.ofLexemes (byteLength before) (Lexeme.ofText rest)).rules :=
    congrArg Reading.rules hreading
  have hflaws := flaws_eq_nil hclean
  rw [hreading] at hflaws
  have hlexemes : text.toList = before ++ textOf (Lexeme.ofText rest) := by
    rw [Lexeme.textOf_ofText, htext]
  obtain ⟨hsealed, hlast⟩ := Reading.readsAlone hlexemes (Lexeme.lexed_ofText rest) hflaws
  rw [hall]
  exact ⟨hsealed, fun rule hrule => ⟨not_mem_text htext hrest hrule, hlast rule hrule⟩⟩

/-- The texts of some rules of a clean text, joined as they are, are read as these rules,
and what follows them as if it stood alone. -/
theorem ofText_joined {text css : String} {rules : List Rule} {tail : List Char}
    (hclean : (ofText text).isClean = true) (hmark : '\ufeff' ∉ text.toList.tail)
    (hrules : rules.Sublist (ofText text).rules)
    (hcss : css.toList = rules.flatMap (fun rule => (rule.text text).toList) ++ tail)
    (htail : tail.head? ≠ some '\ufeff')
    (hlast : ∀ rule, rules.getLast? = some rule →
      ReadsAlone (rule.text text).toList tail rule.comment?) :
    ∃ start again, Reading.ofText css.toList =
        ⟨again ++ (Reading.ofLexemes start (Lexeme.ofText tail)).rules,
          (Reading.ofLexemes start (Lexeme.ofText tail)).flaws⟩ ∧
      (∃ before, byteLength before = start ∧ css.toList = before ++ tail) ∧
      again.map (fun rule => (rule.text css, rule.comment?)) =
        rules.map fun rule => (rule.text text, rule.comment?) := by
  obtain ⟨hsealed, hall⟩ := readsAlone_of_isClean hclean hmark
  obtain ⟨again, hagain, htexts⟩ :=
    @Reading.ofLexemes_joined text css [] tail rules hcss (hsealed.sublist hrules) hlast
  have hunmarked : css.toList.head? ≠ some '\ufeff' := by
    intro hhead
    rw [hcss, List.head?_append, Option.or_eq_some_iff] at hhead
    rcases hhead with hfirst | ⟨-, hfirst⟩
    · obtain ⟨rule, hrule, hmem⟩ := List.mem_flatMap.mp (List.mem_of_head? hfirst)
      exact (hall rule (hrules.subset hrule)).1 hmem
    · exact htail hfirst
  refine ⟨_, again, ?_, ⟨_, rfl, hcss⟩, htexts⟩
  rw [Reading.ofText_of_head? hunmarked, hcss]
  exact hagain

theorem ofText_joined_newline {text css : String} {rules : List Rule}
    (hclean : (ofText text).isClean = true) (hmark : '\ufeff' ∉ text.toList.tail)
    (hrules : rules.Sublist (ofText text).rules)
    (hcss : css = String.join (rules.map (·.text text)) ++ "\n") :
    (ofText css).isClean = true ∧
      (ofText css).rules.map (fun rule => (rule.text css, rule.comment?)) =
        rules.map fun rule => (rule.text text, rule.comment?) := by
  obtain ⟨-, hall⟩ := readsAlone_of_isClean hclean hmark
  have hjoined : css.toList = rules.flatMap (fun rule => (rule.text text).toList) ++ ['\n'] := by
    rw [hcss, String.toList_append, String.toList_join, List.flatMap_map]
    rfl
  obtain ⟨start, again, hread, -, htexts⟩ := ofText_joined hclean hmark hrules hjoined
    (by decide) fun rule hrule =>
      (hall rule (hrules.subset (List.mem_of_getLast? hrule))).2.1
  rw [ofLexemes_newline, List.append_nil] at hread
  refine ⟨?_, ?_⟩
  · rw [isClean, ofText, hread]
    rfl
  · rw [ofText, hread]
    exact htexts

theorem takeComment?_of_not_mem {body : List Char} (h : '/' ∉ body) (rest : List Char) :
    takeComment? (body ++ '*' :: '/' :: rest) = some (body, rest) := by
  induction body with
  | nil => rfl
  | cons c body ih =>
      rw [List.mem_cons, not_or] at h
      have hnot : ¬ (c = '*' ∧ (body ++ '*' :: '/' :: rest).head? = some '/') := by
        rintro ⟨-, hslash⟩
        cases body with
        | nil => cases hslash
        | cons d body =>
            cases hslash
            exact h.2 List.mem_cons_self
      rw [List.cons_append, Lexeme.takeComment?_cons hnot, ih h.2]
      rfl

theorem ofLexemes_comment {body : List Char} (h : '/' ∉ body) (start : Nat) :
    Reading.ofLexemes start (Lexeme.ofText ('\n' :: ((Lexeme.comment body).text ++ ['\n']))) =
      ⟨[.comment (.ofList body) ⟨start + 1, start + 1 + (Lexeme.comment body).size⟩], []⟩ := by
  have hlexemes : Lexeme.ofText ((Lexeme.comment body).text ++ ['\n']) =
      .comment body :: Lexeme.ofText ['\n'] := by
    have htake := takeComment?_of_not_mem h ['\n']
    rw [← Lexeme.ofText_comment htake]
    simp [Lexeme.text]
  have hstep : Step.ofLexeme (start + 1) (.comment body) (Lexeme.ofText ['\n']) =
      ⟨.rule (.comment (.ofList body) ⟨start + 1, start + 1 + (Lexeme.comment body).size⟩), [],
        start + 1 + (Lexeme.comment body).size, Lexeme.ofText ['\n']⟩ := rfl
  rw [ofLexemes_newline_cons, hlexemes, Reading.ofLexemes_cons _ _ _ hstep, ofLexemes_newline]
  rfl

/-- A comment that follows the rules on a line of its own is one rule more, unless the last
of them would take it in. -/
theorem ofText_joined_comment {text css : String} {rules : List Rule} {body : List Char}
    (hclean : (ofText text).isClean = true) (hmark : '\ufeff' ∉ text.toList.tail)
    (hrules : rules.Sublist (ofText text).rules) (hbody : '/' ∉ body)
    (hlast : ∀ rule, rules.getLast? = some rule → ¬ OpenEnded (rule.text text).toList)
    (hcss : css = String.join (rules.map (·.text text)) ++
      .ofList ('\n' :: ((Lexeme.comment body).text ++ ['\n']))) :
    (ofText css).isClean = true ∧
      (ofText css).rules.map (fun rule => (rule.text css, rule.comment?)) =
        rules.map (fun rule => (rule.text text, rule.comment?)) ++
          [(.ofList (Lexeme.comment body).text, some (.ofList body))] := by
  obtain ⟨-, hall⟩ := readsAlone_of_isClean hclean hmark
  have hjoined : css.toList = rules.flatMap (fun rule => (rule.text text).toList) ++
      '\n' :: ((Lexeme.comment body).text ++ ['\n']) := by
    rw [hcss, String.toList_append, String.toList_join, List.flatMap_map, String.toList_ofList]
  obtain ⟨start, again, hread, ⟨before, hstart, hbefore⟩, htexts⟩ :=
    ofText_joined hclean hmark hrules hjoined (by simp) fun rule hrule =>
      ((hall rule (hrules.subset (List.mem_of_getLast? hrule))).2.2.resolve_right
        (hlast rule hrule)) _
  rw [ofLexemes_comment hbody] at hread
  refine ⟨?_, ?_⟩
  · rw [isClean, ofText, hread]
    rfl
  · have hplace : css.toList = (before ++ ['\n']) ++ ((Lexeme.comment body).text ++ ['\n']) := by
      rw [hbefore]
      simp
    have hcomment : (Rule.comment (.ofList body)
        ⟨start + 1, start + 1 + (Lexeme.comment body).size⟩).text css =
          .ofList (Lexeme.comment body).text := by
      refine Rule.text_eq hplace ?_
      rw [Text.byteLength_append, hstart]
      rfl
    rw [ofText, hread, List.map_append, htexts, List.map_singleton, hcomment]
    rfl

end StyleSplit.Stylesheet
