import StyleSplit.Proofs.Position.LineIndex
import StyleSplit.Proofs.Stylesheet.Enclosed
import StyleSplit.Proofs.Stylesheet.Sealed

/-! A text whose rules have all ended is read in the same way whatever follows it, and what
follows it as if it stood alone. -/

namespace StyleSplit.Stylesheet

open Lexeme (textOf textOf_append textOf_cons Lexed)
open Text (byteLength)

/-- Lexemes that are read without a flaw, in steps which all end with a closed lexeme. -/
inductive Ended : Nat → List Lexeme → Prop
  | nil (start) : Ended start []
  | cons {start lexeme rest} (flaws : (Step.ofLexeme start lexeme rest).flaws = [])
      (block : (Step.ofLexeme start lexeme rest).item.reading.flaws = [])
      (finishes : (Step.ofLexeme start lexeme rest).Finishes start (lexeme :: rest)
        (Step.ofLexemes start))
      (following : Ended (Step.ofLexeme start lexeme rest).next
        (Step.ofLexeme start lexeme rest).rest) :
      Ended start (lexeme :: rest)

section Steps

variable {start : Nat} {lexeme : Lexeme} {lexemes rest : List Lexeme}

namespace Ended

theorem isClosed (h : Ended start lexemes) {last : Lexeme}
    (hlast : lexemes.getLast? = some last) : last.IsClosed := by
  induction h with
  | nil => cases hlast
  | cons _ _ finishes _ ih =>
      obtain ⟨taken, closed, htaken, hclosed, -⟩ := finishes.exists_taken
      rw [htaken, List.append_cons, List.getLast?_append] at hlast
      rcases Option.or_eq_some_iff.mp hlast with hrest | ⟨-, htake⟩
      · exact ih hrest
      · rw [List.getLast?_concat] at htake
        cases htake
        exact hclosed

theorem flaws_eq_nil (h : Ended start lexemes) :
    (Reading.ofLexemes start lexemes).flaws = [] := by
  induction h with
  | nil => simp [Reading.ofLexemes]
  | cons flaws block _ _ ih =>
      rw [Reading.ofLexemes_cons _ _ _ rfl]
      simp [flaws, block, ih]

/-- What follows is read as it would be without the rules before it. -/
theorem ofLexemes_append (h : Ended start lexemes) (other : List Lexeme) :
    Reading.ofLexemes start (lexemes ++ other) =
      ⟨(Reading.ofLexemes start lexemes).rules ++
          (Reading.ofLexemes (start + byteLength (textOf lexemes)) other).rules,
        (Reading.ofLexemes (start + byteLength (textOf lexemes)) other).flaws⟩ := by
  induction h with
  | nil => simp [Reading.ofLexemes, textOf]
  | @cons start lexeme rest flaws block finishes _ ih =>
      obtain ⟨taken, last, htaken, -, hnext, hread⟩ := finishes.exists_taken
      obtain ⟨first, more, hmore, hstep, -⟩ :=
        hread ((Step.ofLexeme start lexeme rest).rest ++ other)
      have hall : lexeme :: rest ++ other = first :: more := by
        rw [htaken, ← hmore]
        simp
      have hstop : start + byteLength (textOf (lexeme :: rest)) =
          (Step.ofLexeme start lexeme rest).next +
            byteLength (textOf (Step.ofLexeme start lexeme rest).rest) := by
        rw [hnext, htaken, List.append_cons, textOf_append _ (Step.rest _),
          Text.byteLength_append, Nat.add_assoc]
      rw [hall, Reading.ofLexemes_cons _ _ _ hstep, Reading.ofLexemes_cons start lexeme rest rfl,
        hstop]
      dsimp only
      rw [ih, flaws, block]
      simp only [List.append_assoc, List.nil_append]

theorem step_append (flaws : (Step.ofLexeme start lexeme rest).flaws = [])
    (block : (Step.ofLexeme start lexeme rest).item.reading.flaws = [])
    (finishes : (Step.ofLexeme start lexeme rest).Finishes start (lexeme :: rest)
      (Step.ofLexemes start))
    (h : Ended (Step.ofLexeme start lexeme rest).next lexemes) :
    ∃ taken, lexeme :: rest = taken ++ (Step.ofLexeme start lexeme rest).rest ∧
      Ended start (taken ++ lexemes) := by
  obtain ⟨taken, last, htaken, -, -, hread⟩ := finishes.exists_taken
  obtain ⟨first, more, hmore, hstep, hfinishes⟩ := hread lexemes
  refine ⟨taken ++ [last], by rw [htaken]; simp, ?_⟩
  rw [← List.append_cons, hmore]
  refine .cons ?_ ?_ hfinishes ?_
  · rw [hstep, flaws]
  · rw [hstep, block]
  · rwa [hstep]

end Ended

/-- In a reading without flaws all rules have ended, or all but the last, which is an at-rule. -/
theorem Reading.ended_or_unended (hclean : (ofLexemes start lexemes).flaws = []) :
    Ended start lexemes ∨ ∃ before rest, lexemes = before ++ .plain '@' :: rest ∧
      Ended start before ∧ (takeName rest).1 ≠ [] ∧ (takePrelude 0 (takeName rest).2).2 = none := by
  induction start, lexemes using Reading.induction with
  | nil start => exact .inl (.nil start)
  | cons start lexeme lexemes _ ih =>
      obtain ⟨hflaws, hblock, hfollowing⟩ := flaws_cons_eq_nil rfl hclean
      rcases Step.finishes_ofLexeme hflaws with ⟨rfl, hending⟩ | hfinishes
      · exact .inr ⟨[], lexemes, rfl, .nil start, Step.takeName_ne_nil hflaws hending, hending⟩
      · rcases ih hfollowing with hended | ⟨before, rest, hrest, hended, hname, hending⟩
        · exact .inl (.cons hflaws hblock hfinishes hended)
        · obtain ⟨taken, htaken, hall⟩ := Ended.step_append hflaws hblock hfinishes hended
          refine .inr ⟨taken ++ before, rest, ?_, hall, hname, hending⟩
          rw [htaken, hrest, List.append_assoc]

end Steps

/-- A text without problems whose last rule is no at-rule that only the end of the text
has ended. -/
structure Complete (text : String) : Prop where
  isClean : (ofText text).isClean = true
  ended : ∀ name span, (ofText text).rules.getLast? = some (.atRule name span) →
    ¬ OpenEnded ((Rule.atRule name span).text text).toList

theorem Complete.ended_ofText {text : String} {mark rest : List Char} (h : Complete text)
    (htext : text.toList = mark ++ rest) (hmarks : Marks mark rest) :
    Ended (byteLength mark) (Lexeme.ofText rest) := by
  have hread : Reading.ofText text.toList =
      Reading.ofLexemes (byteLength mark) (Lexeme.ofText rest) := by
    rw [htext, hmarks.ofText]
  have hflaws := flaws_eq_nil h.isClean
  have hlexed := Lexeme.lexed_ofText rest
  rw [hread] at hflaws
  rcases Reading.ended_or_unended hflaws with hended | ⟨before, inside, hcut, hended, -, hending⟩
  · exact hended
  · rw [hcut, hended.ofLexemes_append] at hread hflaws
    rw [hcut] at hlexed
    obtain ⟨name, piece, gap, hstep, hpiece, -, hopen⟩ :=
      Step.readsAlone_of_unended hlexed.right.2 (Reading.flaws_cons_eq_nil rfl hflaws).1 hending
    rw [Reading.ofLexemes_cons _ _ _ hstep, Reading.ofLexemes] at hread
    have hlast := congrArg (fun reading => reading.rules.getLast?) hread
    dsimp only [Item.reading] at hlast
    rw [List.append_nil, List.getLast?_concat] at hlast
    have hplace : text.toList = (mark ++ textOf before) ++ (piece ++ gap) := by
      rw [htext, ← Lexeme.textOf_ofText rest, hcut, textOf_append, textOf_cons, ← hpiece]
      simp [Lexeme.text]
    refine absurd ?_ (h.ended _ _ hlast)
    rwa [Rule.text_eq hplace (by rw [Rule.span, Text.byteLength_append]), String.toList_ofList]

theorem Ended.ofText_append {start : Nat} {text : List Char} (h : Ended start (Lexeme.ofText text))
    (later : List Char) :
    Lexeme.ofText (text ++ later) = Lexeme.ofText text ++ Lexeme.ofText later := by
  rcases List.eq_nil_or_concat (Lexeme.ofText text) with hnil | ⟨before, last, hconcat⟩
  · have htext := Lexeme.textOf_ofText text
    rw [hnil] at htext ⊢
    rw [← htext]
    rfl
  · rw [List.concat_eq_append] at hconcat
    have hclosed := h.isClosed (by rw [hconcat, List.getLast?_concat])
    have hlexed := Lexeme.lexed_ofText text
    have htext := Lexeme.textOf_ofText text
    rw [hconcat] at hlexed htext ⊢
    have happend := hlexed.ofText_append hclosed later
    rw [htext] at happend
    rw [happend]
    simp

theorem Complete.reading_append {first second : String} (h : Complete first)
    (hmark : second.toList.head? ≠ some '\ufeff') :
    Reading.ofText (first ++ second).toList =
      ⟨(Reading.ofText first.toList).rules ++
          Rule.shiftAll first.utf8ByteSize (Reading.ofText second.toList).rules,
        shiftFlaws first.utf8ByteSize (Reading.ofText second.toList).flaws⟩ := by
  obtain ⟨mark, rest, hfirst, hmarks⟩ := exists_marks first.toList
  have hended := h.ended_ofText hfirst hmarks
  have hsize : byteLength mark + byteLength (textOf (Lexeme.ofText rest)) =
      0 + first.utf8ByteSize := by
    rw [Lexeme.textOf_ofText, ← Text.byteLength_append, ← hfirst, Text.byteLength_toList,
      Nat.zero_add]
  rw [String.toList_append, hfirst, List.append_assoc, (hmarks.append hmark).ofText, hmarks.ofText,
    Reading.ofText_of_head? hmark, hended.ofText_append, hended.ofLexemes_append, hsize,
    Reading.ofLexemes_shift]
  rfl

theorem ofOffset?_of_mem_problems {text : String} {problem : ParseProblem}
    (h : problem ∈ (ofText text).problems) :
    Position.ofOffset? text problem.offset = some problem.position := by
  obtain ⟨found, hfound, rfl⟩ := List.mem_map.mp h
  obtain ⟨mark, rest, htext, hmarks⟩ := exists_marks text.toList
  rw [htext, hmarks.ofText] at hfound
  obtain ⟨before, after, hcut, hoffset⟩ := Reading.foundIn_of_mem_flaws hfound
  have hplace : Position.ofOffset? text found.1 = some (.after (mark ++ textOf before)) := by
    refine Position.ofOffset?_eq_some_iff.mpr ⟨mark ++ textOf before, textOf after, ?_, ?_, rfl⟩
    · rw [htext, ← Lexeme.textOf_ofText rest, hcut, textOf_append, List.append_assoc]
    · rw [Text.byteLength_append, hoffset]
  dsimp only
  rw [LineIndex.position?_ofText, hplace]
  rfl

/-- The rules of a text that is complete are followed by those of the text that is appended
to it, and only problems of that text are reported. -/
theorem ofText_append_of_complete {first second : String} (h : Complete first)
    (hmark : second.toList.head? ≠ some '\ufeff') :
    (ofText (first ++ second)).rules =
        (ofText first).rules ++ Rule.shiftAll first.utf8ByteSize (ofText second).rules ∧
      (ofText (first ++ second)).problems.map (fun problem => (problem.reason, problem.offset)) =
        (ofText second).problems.map (fun problem =>
          (problem.reason, problem.offset + first.utf8ByteSize)) ∧
      ∀ problem ∈ (ofText (first ++ second)).problems,
        Position.ofOffset? (first ++ second) problem.offset = some problem.position := by
  have hread := h.reading_append hmark
  refine ⟨congrArg Reading.rules hread, ?_, fun problem => ofOffset?_of_mem_problems⟩
  rw [ofText, ofText, hread, shiftFlaws]
  simp only [List.map_map]
  rfl

theorem ofText_append_of_complete_import :
    let first := "/*!*/@media p\x7ba\x7b\x7d\x7d\n@import \"a\";"
    let second := "\nb\x7b"
    Complete first ∧ second.toList.head? ≠ some '\ufeff' ∧
      (ofText (first ++ second)).rules =
        (ofText first).rules ++ Rule.shiftAll 31 (ofText second).rules ∧
      (ofText (first ++ second)).problems.map (fun problem => (problem.reason, problem.offset)) =
        [("missing '\x7d' to close rule", 32)] := by
  intro first second
  have hcomplete : Complete first := by
    refine ⟨by decide +kernel, fun name span hlast => ?_⟩
    have hspan : (ofText first).rules.getLast?.map Rule.span = some ⟨19, 31⟩ := by decide +kernel
    have hrule : (Rule.atRule name span).text first = "@import \"a\";" := by
      rw [hlast, Option.map_some, Option.some_inj] at hspan
      rw [Rule.text, hspan]
      decide
    rintro ⟨within, hwithin, hopen⟩
    rw [hrule] at hwithin
    obtain ⟨-, rfl⟩ := List.cons.inj hwithin
    revert hopen
    unfold Unended
    decide +kernel
  have hmark : second.toList.head? ≠ some '\ufeff' := by decide
  obtain ⟨hrules, hproblems, -⟩ := ofText_append_of_complete hcomplete hmark
  exact ⟨hcomplete, hmark, hrules, hproblems.trans (by decide +kernel)⟩

end StyleSplit.Stylesheet
