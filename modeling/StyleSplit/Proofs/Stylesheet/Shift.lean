import StyleSplit.Proofs.Stylesheet.Reading

/-! Where a text starts moves its rules and flaws, and changes nothing else of its reading. -/

namespace StyleSplit

def Span.shift (offset : Nat) (span : Span) : Span :=
  ⟨span.start + offset, span.stop + offset⟩

mutual

def Rule.shift (offset : Nat) : Rule → Rule
  | .style span => .style (span.shift offset)
  | .atRule name span => .atRule name (span.shift offset)
  | .media children span => .media (Rule.shiftAll offset children) (span.shift offset)
  | .comment body span => .comment body (span.shift offset)

def Rule.shiftAll (offset : Nat) : List Rule → List Rule
  | [] => []
  | rule :: rules => rule.shift offset :: Rule.shiftAll offset rules

end

namespace Rule

variable {offset : Nat}

theorem shiftAll_append (first second : List Rule) :
    shiftAll offset (first ++ second) = shiftAll offset first ++ shiftAll offset second := by
  induction first with
  | nil => rfl
  | cons rule first ih => rw [List.cons_append, shiftAll, shiftAll, ih, List.cons_append]

theorem exists_of_shiftAll_eq_singleton {rules : List Rule} {rule : Rule}
    (h : shiftAll offset rules = [rule]) :
    ∃ found, rules = [found] ∧ found.shift offset = rule := by
  cases rules with
  | nil => cases h
  | cons found rules =>
      obtain ⟨hfound, hrules⟩ := List.cons.inj h
      cases rules with
      | nil => exact ⟨found, rfl, hfound⟩
      | cons => cases hrules

theorem span_shift (rule : Rule) : (rule.shift offset).span = rule.span.shift offset := by
  cases rule <;> rw [shift, span, span]

theorem comment?_shift (rule : Rule) : (rule.shift offset).comment? = rule.comment? := by
  cases rule <;> rw [shift] <;> rfl

end Rule

namespace Stylesheet

def shiftFlaws (offset : Nat) (flaws : List (Nat × Flaw)) : List (Nat × Flaw) :=
  flaws.map fun (start, flaw) => (start + offset, flaw)

def Reading.shift (offset : Nat) (reading : Reading) : Reading :=
  ⟨Rule.shiftAll offset reading.rules, shiftFlaws offset reading.flaws⟩

def Item.shift (offset : Nat) : Item → Item
  | .nothing => .nothing
  | .rule found => .rule (found.shift offset)
  | .media bodyStart body span => .media (bodyStart + offset) body (span.shift offset)

def Step.shift (offset : Nat) (step : Step) : Step :=
  ⟨step.item.shift offset, shiftFlaws offset step.flaws, step.next + offset, step.rest⟩

theorem shiftFlaws_append (offset : Nat) (first second : List (Nat × Flaw)) :
    shiftFlaws offset (first ++ second) = shiftFlaws offset first ++ shiftFlaws offset second :=
  List.map_append

theorem shiftFlaws_eq_nil {offset : Nat} {flaws : List (Nat × Flaw)} :
    shiftFlaws offset flaws = [] ↔ flaws = [] :=
  List.map_eq_nil_iff

theorem shiftFlaws_singleton (offset start : Nat) (flaw : Flaw) :
    shiftFlaws offset [(start, flaw)] = [(start + offset, flaw)] := rfl

theorem shiftFlaws_ite (offset : Nat) (condition : Prop) [Decidable condition]
    (start : Nat) (flaw : Flaw) :
    shiftFlaws offset (if condition then [(start, flaw)] else []) =
      if condition then [(start + offset, flaw)] else [] := by
  split <;> rfl

theorem Step.ofAtRule_shift (start offset : Nat) (lexemes : List Lexeme) :
    ofAtRule (start + offset) lexemes = (ofAtRule start lexemes).shift offset := by
  obtain ⟨name, tail, step, hname, hstep, hview⟩ := exists_atRuleView start lexemes
  rw [hstep]
  cases hview with
  | unended hprelude htext =>
      rw [ofAtRule_eq hname (.unended hprelude htext)]
      simp only [shift, Item.shift, Rule.shift, Span.shift, shiftFlaws_ite, trimmedStop,
        Nat.add_right_comm _ offset]
  | semicolon hprelude htext =>
      rw [ofAtRule_eq hname (.semicolon hprelude htext)]
      simp only [shift, Item.shift, Rule.shift, Span.shift, shiftFlaws_ite,
        Nat.add_right_comm _ offset]
  | closing hprelude htext =>
      rw [ofAtRule_eq hname (.closing hprelude htext)]
      simp only [shift, Item.shift, Rule.shift, Span.shift, shiftFlaws_append, shiftFlaws_ite,
        shiftFlaws_singleton, trimmedStop, Nat.add_right_comm _ offset]
  | unclosed hprelude hblock htext hstop =>
      rw [ofAtRule_eq hname (.unclosed hprelude hblock htext rfl), hstop]
      simp only [shift, Item.shift, Rule.shift, Span.shift, shiftFlaws_append, shiftFlaws_ite,
        shiftFlaws_singleton, Nat.add_right_comm _ offset]
  | media hprelude hblock htext hstop hmedia =>
      rw [ofAtRule_eq hname (.media hprelude hblock htext rfl hmedia), hstop]
      simp only [shift, Item.shift, Span.shift, shiftFlaws_ite, Nat.add_right_comm _ offset]
  | block hprelude hblock htext hstop hmedia =>
      rw [ofAtRule_eq hname (.block hprelude hblock htext rfl hmedia), hstop]
      simp only [shift, Item.shift, Rule.shift, Span.shift, shiftFlaws_ite,
        Nat.add_right_comm _ offset]

theorem Step.ofStyle_shift (start offset : Nat) (lexemes : List Lexeme) :
    ofStyle (start + offset) lexemes = (ofStyle start lexemes).shift offset := by
  obtain ⟨step, hstep, hview⟩ := exists_styleView start lexemes
  rw [hstep]
  cases hview with
  | unended hprelude hstop =>
      rw [ofStyle_eq (.unended hprelude rfl), hstop, Nat.add_right_comm]
      rfl
  | semicolon hprelude hstop =>
      rw [ofStyle_eq (.semicolon hprelude rfl), hstop]
      simp only [Nat.add_right_comm _ offset]
      rfl
  | closing hprelude hstop =>
      rw [ofStyle_eq (.closing hprelude rfl), hstop]
      simp only [Nat.add_right_comm _ offset]
      rfl
  | unclosed hprelude hblock hflaws hstop =>
      rw [ofStyle_eq (.unclosed hprelude hblock rfl rfl), hflaws, hstop]
      simp only [shift, Item.shift, Rule.shift, Span.shift, shiftFlaws_append, shiftFlaws_ite,
        shiftFlaws_singleton, Nat.add_right_comm _ offset]
  | block hprelude hblock hflaws hstop =>
      rw [ofStyle_eq (.block hprelude hblock rfl rfl), hflaws, hstop]
      simp only [shift, Item.shift, Rule.shift, Span.shift, shiftFlaws_ite,
        Nat.add_right_comm _ offset]

theorem Step.ofLexeme_shift (start offset : Nat) (lexeme : Lexeme) (rest : List Lexeme) :
    ofLexeme (start + offset) lexeme rest = (ofLexeme start lexeme rest).shift offset := by
  obtain ⟨step, hstep, hview⟩ := exists_view start lexeme rest
  rw [hstep]
  cases hview with
  | comment hstop =>
      rw [hstop, ofLexeme, Nat.add_right_comm]
      rfl
  | openComment hstop =>
      rw [hstop, ofLexeme, Nat.add_right_comm]
      rfl
  | blank hblank =>
      rw [ofLexeme, if_pos hblank, Nat.add_right_comm]
      rfl
  | brace =>
      rw [ofLexeme, if_neg (by decide), if_pos rfl, Nat.add_right_comm]
      rfl
  | atRule => exact ofAtRule_shift start offset rest
  | style hstyle =>
      rw [hstyle]
      exact ofStyle_shift start offset _

theorem Reading.ofLexemes_shift (start offset : Nat) (lexemes : List Lexeme) :
    ofLexemes (start + offset) lexemes = (ofLexemes start lexemes).shift offset := by
  induction start, lexemes using Reading.induction with
  | nil start => simp [ofLexemes, shift, Rule.shiftAll, shiftFlaws]
  | cons start lexeme lexemes hbody hrest =>
      have hstep := Step.ofLexeme_shift start offset lexeme lexemes
      rw [ofLexemes_cons _ _ _ hstep, ofLexemes_cons start lexeme lexemes rfl]
      generalize Step.ofLexeme start lexeme lexemes = step at *
      have hitem : (step.item.shift offset).reading = step.item.reading.shift offset := by
        cases hitem : step.item with
        | nothing => rfl
        | rule found => rfl
        | media bodyStart body span =>
            rw [Item.shift, Item.reading, Item.reading, hbody bodyStart body span hitem]
            rfl
      dsimp only [Step.shift]
      rw [hitem, hrest]
      simp only [shift, Rule.shiftAll_append, shiftFlaws_append]

theorem Item.reading_shift (offset : Nat) (item : Item) :
    (item.shift offset).reading = item.reading.shift offset := by
  cases item with
  | nothing => rfl
  | rule found => rfl
  | media bodyStart body span =>
      rw [shift, reading, reading, Reading.ofLexemes_shift]
      rfl

end Stylesheet

end StyleSplit
