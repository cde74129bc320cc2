import StyleSplit.Position.LineIndex
import StyleSplit.Stylesheet.Lexeme
import StyleSplit.Stylesheet.Rule
import StyleSplit.Text.Class

/-! Reading a stylesheet into its rules. Every text has a reading; what had to
be skipped or guessed is reported. -/

namespace StyleSplit

inductive Flaw where
  | unclosedComment
  | strayBrace
  | namelessAtRule
  | unclosedAtRule (name : String)
  | selectorMissing
  | unclosedRule
  | blockMissing
  deriving DecidableEq, Repr

def Flaw.message : Flaw → String
  | unclosedComment => "missing '*/' at end of comment"
  | strayBrace => "unexpected '\x7d'"
  | namelessAtRule => "missing at-rule name after '@'"
  | unclosedAtRule name => "missing '\x7d' to close '@" ++ name ++ "'"
  | selectorMissing => "selector missing"
  | unclosedRule => "missing '\x7d' to close rule"
  | blockMissing => "missing '\x7b' after selector"

namespace Stylesheet

inductive Stop where
  | semicolon
  | opening
  | closing
  deriving DecidableEq, Repr

def Stop.ofChar? (c : Char) : Option Stop :=
  if c = ';' then some semicolon
  else if c = '\x7b' then some opening
  else if c = '\x7d' then some closing
  else none

/-- Parentheses open after `c`; a closing one too many is ignored. -/
def parensAfter (depth : Nat) (c : Char) : Nat :=
  if c = '(' then depth + 1 else if c = ')' then depth - 1 else depth

/-- The lexemes up to the first stop outside parentheses, the stop, and what
follows it. -/
def takePrelude (depth : Nat) : List Lexeme → List Lexeme × Option (Stop × List Lexeme)
  | [] => ([], none)
  | .plain c :: lexemes =>
      match if depth = 0 then Stop.ofChar? c else none with
      | some stop => ([], some (stop, lexemes))
      | none =>
          let (prelude, rest) := takePrelude (parensAfter depth c) lexemes
          (.plain c :: prelude, rest)
  | lexeme :: lexemes =>
      let (prelude, rest) := takePrelude depth lexemes
      (lexeme :: prelude, rest)

/-- The lexemes up to the brace that closes the block, with `depth` blocks open
inside it, and what follows the brace. -/
def takeBlock? (depth : Nat) : List Lexeme → Option (List Lexeme × List Lexeme)
  | [] => none
  | lexeme :: lexemes =>
      if lexeme = .plain '\x7d' ∧ depth = 0 then some ([], lexemes)
      else
        let depth :=
          if lexeme = .plain '\x7b' then depth + 1
          else if lexeme = .plain '\x7d' then depth - 1
          else depth
        (takeBlock? depth lexemes).map fun (body, rest) => (lexeme :: body, rest)

def takeName : List Lexeme → List Char × List Lexeme
  | .plain c :: lexemes =>
      if Text.isNameChar c then
        let (name, rest) := takeName lexemes
        (c :: name, rest)
      else ([], .plain c :: lexemes)
  | lexemes => ([], lexemes)

theorem takePrelude_append (depth : Nat) (lexemes : List Lexeme) :
    match takePrelude depth lexemes with
    | (prelude, none) => lexemes = prelude
    | (prelude, some (_, rest)) => ∃ c, lexemes = prelude ++ .plain c :: rest := by
  fun_induction takePrelude depth lexemes with
  | case1 => rfl
  | case2 => simp
  | case3 depth c lexemes _ prelude rest hrest ih =>
      rw [hrest] at ih
      cases rest with
      | none => simpa using ih
      | some rest => simpa using ih
  | case4 depth lexeme lexemes _ prelude rest hrest ih =>
      rw [hrest] at ih
      cases rest with
      | none => simpa using ih
      | some rest => simpa using ih

theorem takeBlock?_append {depth : Nat} {lexemes body rest : List Lexeme}
    (h : takeBlock? depth lexemes = some (body, rest)) :
    lexemes = body ++ .plain '\x7d' :: rest := by
  induction lexemes generalizing depth body with
  | nil => simp [takeBlock?] at h
  | cons lexeme lexemes ih =>
      rw [takeBlock?] at h
      split at h
      · rename_i hclose
        simp only [Option.some.injEq, Prod.mk.injEq] at h
        simp [hclose.1, ← h.1, h.2]
      · obtain ⟨⟨first, second⟩, htake, heq⟩ := Option.map_eq_some_iff.mp h
        cases heq
        simp [ih htake]

theorem takeName_append (lexemes : List Lexeme) :
    (takeName lexemes).1.map .plain ++ (takeName lexemes).2 = lexemes := by
  fun_induction takeName lexemes <;> simp_all

theorem length_takeName_le (lexemes : List Lexeme) :
    (takeName lexemes).2.length ≤ lexemes.length := by
  have h := congrArg List.length (takeName_append lexemes)
  rw [List.length_append] at h
  omega

theorem length_takePrelude_lt {depth : Nat} {lexemes prelude rest : List Lexeme}
    {stop : Stop} (h : takePrelude depth lexemes = (prelude, some (stop, rest))) :
    rest.length < lexemes.length := by
  have happend := takePrelude_append depth lexemes
  rw [h] at happend
  obtain ⟨c, hc⟩ := happend
  simp [hc]
  omega

theorem length_takeBlock?_lt {depth : Nat} {lexemes body rest : List Lexeme}
    (h : takeBlock? depth lexemes = some (body, rest)) :
    body.length < lexemes.length ∧ rest.length < lexemes.length := by
  simp [takeBlock?_append h]
  omega

inductive Item where
  | nothing
  | rule (rule : Rule)
  /-- A media rule, whose block is still to be read. -/
  | media (bodyStart : Nat) (body : List Lexeme) (span : Span)

/-- One part of a text, the flaws met in it, and the lexemes after it, whose
text starts at byte `next`. -/
structure Step where
  item : Item := .nothing
  flaws : List (Nat × Flaw) := []
  next : Nat
  rest : List Lexeme

/-- The end of an at-rule that has neither a block nor a semicolon: white space
before its end is not part of it. -/
def trimmedStop (start : Nat) (text : List Char) : Nat :=
  start + Text.byteLength (Text.trimEnd text)

def Step.ofAtRule (start : Nat) (lexemes : List Lexeme) : Step :=
  let (nameChars, lexemes) := takeName lexemes
  let name := String.ofList nameChars
  let flaws := if nameChars = [] then [(start, .namelessAtRule)] else []
  let (prelude, ending) := takePrelude 0 lexemes
  let text := '@' :: nameChars ++ Lexeme.textOf prelude
  let stop := start + Text.byteLength text
  match ending with
  | none =>
      ⟨.rule (.atRule name ⟨start, trimmedStop start text⟩), flaws, stop, []⟩
  | some (.closing, rest) =>
      ⟨.rule (.atRule name ⟨start, trimmedStop start text⟩),
        flaws ++ [(stop, .strayBrace)], stop + 1, rest⟩
  | some (.semicolon, rest) =>
      ⟨.rule (.atRule name ⟨start, stop + 1⟩), flaws, stop + 1, rest⟩
  | some (.opening, rest) =>
      match takeBlock? 0 rest with
      | none =>
          let stop := stop + 1 + Lexeme.sizeOf rest
          ⟨.rule (.atRule name ⟨start, stop⟩),
            flaws ++ [(start, .unclosedAtRule name)], stop, []⟩
      | some (body, rest) =>
          let bodyStart := stop + 1
          let stop := bodyStart + Lexeme.sizeOf body + 1
          if nameChars.map Char.toLower = "media".toList then
            ⟨.media bodyStart body ⟨start, stop⟩, flaws, stop, rest⟩
          else ⟨.rule (.atRule name ⟨start, stop⟩), flaws, stop, rest⟩

def Step.ofStyle (start : Nat) (lexemes : List Lexeme) : Step :=
  let (prelude, ending) := takePrelude 0 lexemes
  let stop := start + Lexeme.sizeOf prelude
  match ending with
  | none => ⟨.nothing, [(start, .blockMissing)], stop, []⟩
  | some (.semicolon, rest) => ⟨.nothing, [(start, .blockMissing)], stop + 1, rest⟩
  | some (.closing, rest) =>
      ⟨.nothing, [(start, .blockMissing), (stop, .strayBrace)], stop + 1, rest⟩
  | some (.opening, rest) =>
      let flaws :=
        if (Lexeme.textOf prelude).all Text.isWhite then [(start, .selectorMissing)]
        else []
      match takeBlock? 0 rest with
      | none =>
          let stop := stop + 1 + Lexeme.sizeOf rest
          ⟨.rule (.style ⟨start, stop⟩), flaws ++ [(start, .unclosedRule)], stop, []⟩
      | some (body, rest) =>
          let stop := stop + 1 + Lexeme.sizeOf body + 1
          ⟨.rule (.style ⟨start, stop⟩), flaws, stop, rest⟩

def Step.ofLexeme (start : Nat) (lexeme : Lexeme) (rest : List Lexeme) : Step :=
  match lexeme with
  | .comment body =>
      let stop := start + lexeme.size
      ⟨.rule (.comment (.ofList body) ⟨start, stop⟩), [], stop, rest⟩
  | .openComment body =>
      let stop := start + lexeme.size
      ⟨.rule (.comment (.ofList body) ⟨start, stop⟩), [(start, .unclosedComment)],
        stop, rest⟩
  | .plain c =>
      if Text.isBlank c then ⟨.nothing, [], start + 1, rest⟩
      else if c = '\x7d' then ⟨.nothing, [(start, .strayBrace)], start + 1, rest⟩
      else if c = '@' then ofAtRule start rest
      else ofStyle start (lexeme :: rest)
  | .escape _ | .quoted _ _ => ofStyle start (lexeme :: rest)

/-! A step told by what it meets. Proofs about steps go by these cases. -/

/-- The steps of a style rule, by what ends its prelude. -/
inductive Step.StyleView (start : Nat) (lexemes : List Lexeme) : Step → Prop
  | unended {prelude stop} (hprelude : takePrelude 0 lexemes = (prelude, none))
      (hstop : stop = start + Lexeme.sizeOf prelude) :
      StyleView start lexemes ⟨.nothing, [(start, .blockMissing)], stop, []⟩
  | semicolon {prelude rest stop}
      (hprelude : takePrelude 0 lexemes = (prelude, some (.semicolon, rest)))
      (hstop : stop = start + Lexeme.sizeOf prelude) :
      StyleView start lexemes ⟨.nothing, [(start, .blockMissing)], stop + 1, rest⟩
  | closing {prelude rest stop}
      (hprelude : takePrelude 0 lexemes = (prelude, some (.closing, rest)))
      (hstop : stop = start + Lexeme.sizeOf prelude) :
      StyleView start lexemes
        ⟨.nothing, [(start, .blockMissing), (stop, .strayBrace)], stop + 1, rest⟩
  | unclosed {prelude rest stop flaws}
      (hprelude : takePrelude 0 lexemes = (prelude, some (.opening, rest)))
      (hblock : takeBlock? 0 rest = none)
      (hflaws : flaws =
        if (Lexeme.textOf prelude).all Text.isWhite then [(start, .selectorMissing)] else [])
      (hstop : stop = start + Lexeme.sizeOf prelude + 1 + Lexeme.sizeOf rest) :
      StyleView start lexemes
        ⟨.rule (.style ⟨start, stop⟩), flaws ++ [(start, .unclosedRule)], stop, []⟩
  | block {prelude rest body after stop flaws}
      (hprelude : takePrelude 0 lexemes = (prelude, some (.opening, rest)))
      (hblock : takeBlock? 0 rest = some (body, after))
      (hflaws : flaws =
        if (Lexeme.textOf prelude).all Text.isWhite then [(start, .selectorMissing)] else [])
      (hstop : stop = start + Lexeme.sizeOf prelude + 1 + Lexeme.sizeOf body + 1) :
      StyleView start lexemes ⟨.rule (.style ⟨start, stop⟩), flaws, stop, after⟩

/-- The steps of an at-rule whose name has been read, by what ends its prelude. -/
inductive Step.AtRuleView (start : Nat) (name : List Char) (tail : List Lexeme)
    (flaws : List (Nat × Flaw)) : Step → Prop
  | unended {prelude text} (hprelude : takePrelude 0 tail = (prelude, none))
      (htext : text = '@' :: name ++ Lexeme.textOf prelude) :
      AtRuleView start name tail flaws
        ⟨.rule (.atRule (.ofList name) ⟨start, trimmedStop start text⟩), flaws,
          start + Text.byteLength text, []⟩
  | semicolon {prelude rest text}
      (hprelude : takePrelude 0 tail = (prelude, some (.semicolon, rest)))
      (htext : text = '@' :: name ++ Lexeme.textOf prelude) :
      AtRuleView start name tail flaws
        ⟨.rule (.atRule (.ofList name) ⟨start, start + Text.byteLength text + 1⟩), flaws,
          start + Text.byteLength text + 1, rest⟩
  | closing {prelude rest text}
      (hprelude : takePrelude 0 tail = (prelude, some (.closing, rest)))
      (htext : text = '@' :: name ++ Lexeme.textOf prelude) :
      AtRuleView start name tail flaws
        ⟨.rule (.atRule (.ofList name) ⟨start, trimmedStop start text⟩),
          flaws ++ [(start + Text.byteLength text, .strayBrace)],
          start + Text.byteLength text + 1, rest⟩
  | unclosed {prelude rest text stop}
      (hprelude : takePrelude 0 tail = (prelude, some (.opening, rest)))
      (hblock : takeBlock? 0 rest = none)
      (htext : text = '@' :: name ++ Lexeme.textOf prelude)
      (hstop : stop = start + Text.byteLength text + 1 + Lexeme.sizeOf rest) :
      AtRuleView start name tail flaws
        ⟨.rule (.atRule (.ofList name) ⟨start, stop⟩),
          flaws ++ [(start, .unclosedAtRule (.ofList name))], stop, []⟩
  | media {prelude rest body after text stop}
      (hprelude : takePrelude 0 tail = (prelude, some (.opening, rest)))
      (hblock : takeBlock? 0 rest = some (body, after))
      (htext : text = '@' :: name ++ Lexeme.textOf prelude)
      (hstop : stop = start + Text.byteLength text + 1 + Lexeme.sizeOf body + 1)
      (hmedia : name.map Char.toLower = "media".toList) :
      AtRuleView start name tail flaws
        ⟨.media (start + Text.byteLength text + 1) body ⟨start, stop⟩, flaws, stop, after⟩
  | block {prelude rest body after text stop}
      (hprelude : takePrelude 0 tail = (prelude, some (.opening, rest)))
      (hblock : takeBlock? 0 rest = some (body, after))
      (htext : text = '@' :: name ++ Lexeme.textOf prelude)
      (hstop : stop = start + Text.byteLength text + 1 + Lexeme.sizeOf body + 1)
      (hmedia : name.map Char.toLower ≠ "media".toList) :
      AtRuleView start name tail flaws
        ⟨.rule (.atRule (.ofList name) ⟨start, stop⟩), flaws, stop, after⟩

/-- The steps, by the lexeme that they start with. -/
inductive Step.View (start : Nat) (rest : List Lexeme) : Lexeme → Step → Prop
  | comment {body stop} (hstop : stop = start + (Lexeme.comment body).size) :
      View start rest (.comment body)
        ⟨.rule (.comment (.ofList body) ⟨start, stop⟩), [], stop, rest⟩
  | openComment {body stop} (hstop : stop = start + (Lexeme.openComment body).size) :
      View start rest (.openComment body)
        ⟨.rule (.comment (.ofList body) ⟨start, stop⟩), [(start, .unclosedComment)], stop, rest⟩
  | blank {c} (hblank : Text.isBlank c = true) :
      View start rest (.plain c) ⟨.nothing, [], start + 1, rest⟩
  | brace : View start rest (.plain '\x7d')
      ⟨.nothing, [(start, .strayBrace)], start + 1, rest⟩
  | atRule : View start rest (.plain '@') (ofAtRule start rest)
  | style {lexeme}
      (hstyle : ∀ start rest, ofLexeme start lexeme rest = ofStyle start (lexeme :: rest)) :
      View start rest lexeme (ofStyle start (lexeme :: rest))

theorem Step.ofStyle_eq {start : Nat} {lexemes : List Lexeme} {step : Step}
    (h : StyleView start lexemes step) : ofStyle start lexemes = step := by
  cases h with
  | unended hprelude hstop => rw [ofStyle, hprelude, hstop]
  | semicolon hprelude hstop => rw [ofStyle, hprelude, hstop]
  | closing hprelude hstop => rw [ofStyle, hprelude, hstop]
  | unclosed hprelude hblock hflaws hstop =>
      rw [ofStyle, hprelude]
      dsimp only
      rw [hblock, hflaws, hstop]
  | block hprelude hblock hflaws hstop =>
      rw [ofStyle, hprelude]
      dsimp only
      rw [hblock, hflaws, hstop]

theorem Step.exists_styleView (start : Nat) (lexemes : List Lexeme) :
    ∃ step, ofStyle start lexemes = step ∧ StyleView start lexemes step := by
  suffices hview : ∃ step, StyleView start lexemes step from
    hview.imp fun step h => ⟨ofStyle_eq h, h⟩
  cases hprelude : takePrelude 0 lexemes with
  | mk prelude ending =>
      cases ending with
      | none => exact ⟨_, .unended hprelude rfl⟩
      | some ending =>
          obtain ⟨stop, rest⟩ := ending
          cases stop with
          | semicolon => exact ⟨_, .semicolon hprelude rfl⟩
          | closing => exact ⟨_, .closing hprelude rfl⟩
          | opening =>
              cases hblock : takeBlock? 0 rest with
              | none => exact ⟨_, .unclosed hprelude hblock rfl rfl⟩
              | some block => exact ⟨_, .block hprelude hblock rfl rfl⟩

section AtRule

variable {start : Nat} {name : List Char} {lexemes tail : List Lexeme} {step : Step}

theorem Step.ofAtRule_eq (hname : takeName lexemes = (name, tail))
    (h : AtRuleView start name tail (if name = [] then [(start, .namelessAtRule)] else []) step) :
    ofAtRule start lexemes = step := by
  rw [ofAtRule, hname]
  dsimp only
  cases h with
  | unended hprelude htext => rw [hprelude, htext]
  | semicolon hprelude htext => rw [hprelude, htext]
  | closing hprelude htext => rw [hprelude, htext]
  | unclosed hprelude hblock htext hstop =>
      rw [hprelude, hstop, htext]
      dsimp only
      rw [hblock]
  | media hprelude hblock htext hstop hmedia =>
      rw [hprelude, hstop, htext]
      dsimp only
      rw [hblock]
      exact if_pos hmedia
  | block hprelude hblock htext hstop hmedia =>
      rw [hprelude, hstop, htext]
      dsimp only
      rw [hblock]
      exact if_neg hmedia

theorem Step.exists_atRuleView (start : Nat) (lexemes : List Lexeme) :
    ∃ name tail step, takeName lexemes = (name, tail) ∧ ofAtRule start lexemes = step ∧
      AtRuleView start name tail (if name = [] then [(start, .namelessAtRule)] else []) step := by
  cases hname : takeName lexemes with
  | mk name tail =>
      suffices hview : ∃ step, AtRuleView start name tail _ step from
        hview.elim fun step h => ⟨name, tail, step, rfl, ofAtRule_eq hname h, h⟩
      cases hprelude : takePrelude 0 tail with
      | mk prelude ending =>
          cases ending with
          | none => exact ⟨_, .unended hprelude rfl⟩
          | some ending =>
              obtain ⟨stop, rest⟩ := ending
              cases stop with
              | semicolon => exact ⟨_, .semicolon hprelude rfl⟩
              | closing => exact ⟨_, .closing hprelude rfl⟩
              | opening =>
                  cases hblock : takeBlock? 0 rest with
                  | none => exact ⟨_, .unclosed hprelude hblock rfl rfl⟩
                  | some block =>
                      by_cases hmedia : name.map Char.toLower = "media".toList
                      · exact ⟨_, .media hprelude hblock rfl rfl hmedia⟩
                      · exact ⟨_, .block hprelude hblock rfl rfl hmedia⟩

end AtRule

theorem Step.exists_view (start : Nat) (lexeme : Lexeme) (rest : List Lexeme) :
    ∃ step, ofLexeme start lexeme rest = step ∧ View start rest lexeme step := by
  cases lexeme with
  | comment body => exact ⟨_, rfl, .comment rfl⟩
  | openComment body => exact ⟨_, rfl, .openComment rfl⟩
  | escape => exact ⟨_, rfl, .style fun _ _ => rfl⟩
  | quoted => exact ⟨_, rfl, .style fun _ _ => rfl⟩
  | plain c =>
      by_cases hblank : Text.isBlank c = true
      · exact ⟨_, by rw [ofLexeme, if_pos hblank], .blank hblank⟩
      · by_cases hbrace : c = '\x7d'
        · subst hbrace
          exact ⟨_, rfl, .brace⟩
        · by_cases hat : c = '@'
          · subst hat
            exact ⟨_, rfl, .atRule⟩
          · have hstyle (start : Nat) (rest : List Lexeme) :
                ofLexeme start (.plain c) rest = ofStyle start (.plain c :: rest) := by
              rw [ofLexeme, if_neg hblank, if_neg hbrace, if_neg hat]
            exact ⟨_, hstyle start rest, .style hstyle⟩

theorem Step.length_rest_ofAtRule_le (start : Nat) (lexemes : List Lexeme) :
    (ofAtRule start lexemes).rest.length ≤ lexemes.length := by
  obtain ⟨name, tail, step, hname, hstep, hview⟩ := exists_atRuleView start lexemes
  have hle : tail.length ≤ lexemes.length := by simpa [hname] using length_takeName_le lexemes
  rw [hstep]
  cases hview with
  | unended | unclosed => exact Nat.zero_le _
  | semicolon hprelude | closing hprelude =>
      exact Nat.le_trans (Nat.le_of_lt (length_takePrelude_lt hprelude)) hle
  | media hprelude hblock | block hprelude hblock =>
      have hprelude := length_takePrelude_lt hprelude
      have hblock := (length_takeBlock?_lt hblock).2
      dsimp only
      omega

theorem Step.length_body_ofAtRule_lt {start bodyStart : Nat} {lexemes body : List Lexeme}
    {span : Span} (h : (ofAtRule start lexemes).item = .media bodyStart body span) :
    body.length < lexemes.length := by
  obtain ⟨name, tail, step, hname, hstep, hview⟩ := exists_atRuleView start lexemes
  have hle : tail.length ≤ lexemes.length := by simpa [hname] using length_takeName_le lexemes
  rw [hstep] at h
  cases hview with
  | media hprelude hblock =>
      cases h
      have hprelude := length_takePrelude_lt hprelude
      have hblock := (length_takeBlock?_lt hblock).1
      omega
  | unended | semicolon | closing | unclosed | block => cases h

theorem Step.length_rest_ofStyle_lt (start : Nat) (lexeme : Lexeme) (lexemes : List Lexeme) :
    (ofStyle start (lexeme :: lexemes)).rest.length < (lexeme :: lexemes).length := by
  obtain ⟨step, hstep, hview⟩ := exists_styleView start (lexeme :: lexemes)
  rw [hstep]
  cases hview with
  | unended | unclosed => exact Nat.zero_lt_succ _
  | semicolon hprelude | closing hprelude => exact length_takePrelude_lt hprelude
  | block hprelude hblock =>
      exact Nat.lt_trans (length_takeBlock?_lt hblock).2 (length_takePrelude_lt hprelude)

theorem Step.item_ofStyle_ne_media (start bodyStart : Nat) (lexemes body : List Lexeme)
    (span : Span) : (ofStyle start lexemes).item ≠ .media bodyStart body span := by
  obtain ⟨step, hstep, hview⟩ := exists_styleView start lexemes
  rw [hstep]
  cases hview <;> exact Item.noConfusion

theorem Step.length_rest_lt (start : Nat) (lexeme : Lexeme) (rest : List Lexeme) :
    (ofLexeme start lexeme rest).rest.length < (lexeme :: rest).length := by
  obtain ⟨step, hstep, hview⟩ := exists_view start lexeme rest
  rw [hstep]
  cases hview with
  | comment | openComment | blank | brace => exact Nat.lt_succ_self _
  | atRule => exact Nat.lt_succ_of_le (length_rest_ofAtRule_le start rest)
  | style => exact length_rest_ofStyle_lt start lexeme rest

theorem Step.length_body_lt {start bodyStart : Nat} {lexeme : Lexeme}
    {rest body : List Lexeme} {span : Span}
    (h : (ofLexeme start lexeme rest).item = .media bodyStart body span) :
    body.length < (lexeme :: rest).length := by
  obtain ⟨step, hstep, hview⟩ := exists_view start lexeme rest
  rw [hstep] at h
  cases hview with
  | comment | openComment | blank | brace => cases h
  | atRule => exact Nat.lt_succ_of_lt (length_body_ofAtRule_lt h)
  | style => exact absurd h (item_ofStyle_ne_media _ _ _ _ _)

structure Reading where
  rules : List Rule := []
  flaws : List (Nat × Flaw) := []

def Reading.ofLexemes (start : Nat) (lexemes : List Lexeme) : Reading :=
  match lexemes with
  | [] => {}
  | lexeme :: lexemes =>
      let step := Step.ofLexeme start lexeme lexemes
      let item : Reading :=
        match _ : step.item with
        | .nothing => {}
        | .rule rule => ⟨[rule], []⟩
        | .media bodyStart body span =>
            let block := ofLexemes bodyStart body
            ⟨[.media block.rules span], block.flaws⟩
      let following := ofLexemes step.next step.rest
      ⟨item.rules ++ following.rules, step.flaws ++ item.flaws ++ following.flaws⟩
termination_by lexemes.length
decreasing_by
  · exact Step.length_body_lt (by assumption)
  · exact Step.length_rest_lt ..

/-- A byte order mark is skipped, but only where a text begins. -/
def Reading.ofText (text : List Char) : Reading :=
  match text with
  | '\ufeff' :: text => ofLexemes '\ufeff'.utf8Size (Lexeme.ofText text)
  | text => ofLexemes 0 (Lexeme.ofText text)

end Stylesheet

structure ParseProblem where
  reason : String
  offset : Nat
  position : Position
  deriving DecidableEq, Repr

def ParseProblem.message (problem : ParseProblem) : String :=
  problem.reason ++ " (line " ++ toString problem.position.line.toNat ++ ", column " ++
    toString problem.position.column.toNat ++ ")"

structure Stylesheet where
  rules : List Rule
  problems : List ParseProblem

namespace Stylesheet

def ofText (text : String) : Stylesheet :=
  let reading := Reading.ofText text.toList
  let index := LineIndex.ofText text
  ⟨reading.rules, reading.flaws.map fun (offset, flaw) =>
    ⟨flaw.message, offset, (index.position? offset).getD .start⟩⟩

def isClean (stylesheet : Stylesheet) : Bool :=
  stylesheet.problems.isEmpty

end Stylesheet

end StyleSplit
