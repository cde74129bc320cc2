import StyleSplit.Proofs.Stylesheet.Lexing

/-! What a step takes from the lexemes, and that it does not look at what it leaves. -/

namespace StyleSplit.Stylesheet

open Lexeme (textOf textOf_append textOf_cons sizeOf_eq_byteLength)
open Text (byteLength isNameChar)

variable {depth : Nat} {lexemes prelude body rest : List Lexeme} {name : List Char}

theorem ne_of_class {kind : Char → Bool} {c mark : Char} (hc : kind c = true)
    (hmark : kind mark = false) : c ≠ mark := by
  rintro rfl
  rw [hc] at hmark
  contradiction

theorem takeName_of_head? {tail other : List Lexeme} (h : takeName lexemes = (name, tail))
    (hother : other.head? = tail.head?) :
    takeName (name.map .plain ++ other) = (name, other) := by
  fun_induction takeName lexemes generalizing name with
  | case1 c lexemes hc first second htake ih =>
      cases h
      rw [List.map_cons, List.cons_append, takeName, if_pos hc, ih htake]
  | case2 c lexemes hc =>
      cases h
      obtain ⟨other, rfl⟩ := List.head?_eq_some_iff.mp hother
      rw [List.map_nil, List.nil_append, takeName, if_neg hc]
  | case3 lexemes hplain =>
      cases h
      cases other with
      | nil => rfl
      | cons lexeme other =>
          obtain ⟨rest, rfl⟩ := List.head?_eq_some_iff.mp hother.symm
          rw [List.map_nil, List.nil_append, takeName]
          intro c more heq
          cases heq
          exact hplain c rest rfl

theorem isNameChar_of_takeName {tail : List Lexeme} (h : takeName lexemes = (name, tail)) :
    ∀ c ∈ name, isNameChar c = true := by
  fun_induction takeName lexemes generalizing name with
  | case1 c lexemes hc first second htake ih =>
      cases h
      exact List.forall_mem_cons.mpr ⟨hc, ih htake⟩
  | case2 => cases h; simp
  | case3 => cases h; simp

theorem toNat_of_isNameChar {c : Char} (hc : isNameChar c = true) :
    (48 ≤ c.toNat ∧ c.toNat ≤ 57) ∨ (65 ≤ c.toNat ∧ c.toNat ≤ 90) ∨
      (97 ≤ c.toNat ∧ c.toNat ≤ 122) ∨ c.toNat = 45 ∨ c.toNat = 95 := by
  simp only [isNameChar, Char.isAlphanum, Char.isAlpha, Char.isUpper, Char.isLower, Char.isDigit,
    Bool.or_eq_true, Bool.and_eq_true, decide_eq_true_eq, beq_iff_eq, ge_iff_le,
    UInt32.le_iff_toNat_le] at hc
  rcases hc with (((h | h) | h) | rfl) | rfl
  · exact .inr (.inl h)
  · exact .inr (.inr (.inl h))
  · exact .inl h
  · exact .inr (.inr (.inr (.inl rfl)))
  · exact .inr (.inr (.inr (.inr rfl)))

theorem takePrelude_append_any {stop : Stop}
    (h : takePrelude depth lexemes = (prelude, some (stop, rest))) (other : List Lexeme) :
    takePrelude depth (prelude ++ .plain stop.mark :: other) =
      (prelude, some (stop, other)) := by
  fun_induction takePrelude depth lexemes generalizing prelude with
  | case1 => simp at h
  | case2 depth c lexemes found hstop =>
      cases h
      have hmark : c = stop.mark := by
        split at hstop
        · exact Stop.mark_of_ofChar? hstop
        · cases hstop
      rw [← hmark, List.nil_append, takePrelude, hstop]
  | case3 depth c lexemes hnone first second htake ih =>
      cases h
      rw [List.cons_append, takePrelude, hnone, ih htake]
  | case4 depth lexeme lexemes hplain first second htake ih =>
      cases h
      rw [List.cons_append, takePrelude, ih htake]
      exact hplain

theorem takeBlock?_append_any (h : takeBlock? depth lexemes = some (body, rest))
    (other : List Lexeme) :
    takeBlock? depth (body ++ .plain '\x7d' :: other) = some (body, other) := by
  induction lexemes generalizing depth body with
  | nil => simp [takeBlock?] at h
  | cons lexeme lexemes ih =>
      rw [takeBlock?] at h
      split at h
      · rename_i hclose
        cases h
        rw [List.nil_append, takeBlock?, if_pos ⟨rfl, hclose.2⟩]
      · rename_i hopen
        obtain ⟨⟨first, second⟩, htake, heq⟩ := Option.map_eq_some_iff.mp h
        cases heq
        rw [List.cons_append, takeBlock?, if_neg hopen]
        dsimp only
        rw [ih htake]
        rfl

theorem takePrelude_cons_of_isNameChar {c : Char} (hc : isNameChar c = true)
    (lexemes : List Lexeme) :
    takePrelude depth (.plain c :: lexemes) =
      (.plain c :: (takePrelude depth lexemes).1, (takePrelude depth lexemes).2) := by
  have hne {mark : Char} (hmark : isNameChar mark = false) : c ≠ mark := ne_of_class hc hmark
  have hstop : Stop.ofChar? c = none := by
    rw [Stop.ofChar?, if_neg (hne (by decide)), if_neg (hne (by decide)),
      if_neg (hne (by decide))]
  have hparens : parensAfter depth c = depth := by
    rw [parensAfter, if_neg (hne (by decide)), if_neg (hne (by decide))]
  rw [takePrelude, hstop, ite_self]
  dsimp only
  rw [hparens]

theorem takePrelude_map_plain (h : ∀ c ∈ name, isNameChar c = true) (lexemes : List Lexeme) :
    takePrelude depth (name.map .plain ++ lexemes) =
      (name.map .plain ++ (takePrelude depth lexemes).1, (takePrelude depth lexemes).2) := by
  induction name with
  | nil => rfl
  | cons c name ih =>
      obtain ⟨hc, hname⟩ := List.forall_mem_cons.mp h
      rw [List.map_cons, List.cons_append, takePrelude_cons_of_isNameChar hc, ih hname]
      rfl

/-- A step that ends its rule with a closed lexeme takes the same lexemes whatever follows,
and the rule ends where the step does. -/
structure Step.Finishes (step : Step) (start : Nat) (lexemes : List Lexeme)
    (read : List Lexeme → Step) : Prop where
  exists_last : ∃ taken last, lexemes = taken ++ last :: step.rest ∧ last.IsClosed ∧
    ∀ other, read (taken ++ last :: other) = { step with rest := other }
  span_eq : ∀ rule ∈ step.item.reading.rules, rule.span = ⟨start, step.next⟩

theorem head?_append_cons (lexemes : List Lexeme) (lexeme : Lexeme) (first second : List Lexeme) :
    (lexemes ++ lexeme :: first).head? = (lexemes ++ lexeme :: second).head? := by
  cases lexemes <;> rfl

theorem Step.finishes_ofAtRule {start : Nat} (hflaws : (ofAtRule start lexemes).flaws = [])
    (hending : (takePrelude 0 (takeName lexemes).2).2 ≠ none) :
    (ofAtRule start lexemes).Finishes start lexemes (ofAtRule start) := by
  obtain ⟨name, tail, step, hname, hstep, hview⟩ := exists_atRuleView start lexemes
  have hlexemes := eq_of_takeName hname
  -- Whatever follows the stop, the name is read in the same way.
  have hread {prelude rest : List Lexeme} {stop : Stop}
      (hprelude : takePrelude 0 tail = (prelude, some (stop, rest))) (other : List Lexeme) :
      takeName (name.map .plain ++ (prelude ++ .plain stop.mark :: other)) =
        (name, prelude ++ .plain stop.mark :: other) := by
    refine takeName_of_head? hname ?_
    rw [takePrelude_eq_some hprelude]
    exact head?_append_cons ..
  have hcut {prelude rest body after : List Lexeme}
      (hprelude : takePrelude 0 tail = (prelude, some (.opening, rest)))
      (hblock : takeBlock? 0 rest = some (body, after)) :
      lexemes =
        name.map .plain ++ (prelude ++ .plain '\x7b' :: body) ++ .plain '\x7d' :: after := by
    rw [← hlexemes, takePrelude_eq_some hprelude, takeBlock?_append hblock]
    simp [Stop.mark]
  rw [hname] at hending
  rw [hstep] at hflaws ⊢
  cases hview with
  | unended hprelude => exact absurd (congrArg Prod.snd hprelude) hending
  | closing | unclosed => simp at hflaws
  | @semicolon prelude rest text hprelude htext =>
      refine ⟨⟨name.map .plain ++ prelude, .plain ';', ?_, (by decide : ';' ≠ '/'),
        fun other => ?_⟩, ?_⟩
      · rw [← hlexemes, takePrelude_eq_some hprelude, ← List.append_assoc]
        rfl
      · rw [List.append_assoc]
        exact ofAtRule_eq (hread hprelude other)
          (.semicolon (takePrelude_append_any hprelude other) htext)
      · exact List.forall_mem_singleton.mpr rfl
  | media hprelude hblock htext hstop hmedia =>
      refine ⟨⟨_, .plain '\x7d', hcut hprelude hblock, (by decide : '\x7d' ≠ '/'),
        fun other => ?_⟩, List.forall_mem_singleton.mpr rfl⟩
      simp only [List.append_assoc, List.cons_append]
      exact ofAtRule_eq (hread hprelude _) (.media (takePrelude_append_any hprelude _)
        (takeBlock?_append_any hblock other) htext hstop hmedia)
  | block hprelude hblock htext hstop hmedia =>
      refine ⟨⟨_, .plain '\x7d', hcut hprelude hblock, (by decide : '\x7d' ≠ '/'),
        fun other => ?_⟩, List.forall_mem_singleton.mpr rfl⟩
      simp only [List.append_assoc, List.cons_append]
      exact ofAtRule_eq (hread hprelude _) (.block (takePrelude_append_any hprelude _)
        (takeBlock?_append_any hblock other) htext hstop hmedia)

theorem Step.finishes_ofStyle {start : Nat} (hflaws : (ofStyle start lexemes).flaws = []) :
    (ofStyle start lexemes).Finishes start lexemes (ofStyle start) := by
  obtain ⟨step, hstep, hview⟩ := exists_styleView start lexemes
  rw [hstep] at hflaws ⊢
  cases hview with
  | unended | semicolon | closing | unclosed => simp at hflaws
  | @block prelude rest body after stop flaws hprelude hblock hselector hstop =>
      refine ⟨⟨prelude ++ .plain '\x7b' :: body, .plain '\x7d', ?_, (by decide : '\x7d' ≠ '/'),
        fun other => ?_⟩, List.forall_mem_singleton.mpr rfl⟩
      · rw [takePrelude_eq_some hprelude, takeBlock?_append hblock]
        simp [Stop.mark]
      · simp only [List.append_assoc, List.cons_append]
        exact ofStyle_eq (.block (takePrelude_append_any hprelude _)
          (takeBlock?_append_any hblock other) hselector hstop)

def Step.ofLexemes (start : Nat) : List Lexeme → Step
  | [] => { next := start, rest := [] }
  | lexeme :: rest => ofLexeme start lexeme rest

theorem Step.Finishes.of_style {start : Nat} {lexeme : Lexeme}
    (hstyle : ∀ rest, ofLexeme start lexeme rest = ofStyle start (lexeme :: rest))
    (hflaws : (ofLexeme start lexeme rest).flaws = []) :
    (ofLexeme start lexeme rest).Finishes start (lexeme :: rest) (ofLexemes start) := by
  rw [hstyle] at hflaws ⊢
  obtain ⟨⟨taken, last, htaken, hclosed, hread⟩, hspan⟩ := finishes_ofStyle hflaws
  refine ⟨⟨taken, last, htaken, hclosed, ?_⟩, hspan⟩
  intro other
  rw [← hread]
  cases taken with
  | nil =>
      obtain ⟨rfl, -⟩ := List.cons.inj htaken
      exact hstyle other
  | cons first taken =>
      obtain ⟨rfl, -⟩ := List.cons.inj htaken
      exact hstyle _

theorem Step.finishes_ofLexeme {start : Nat} {lexeme : Lexeme}
    (hflaws : (ofLexeme start lexeme rest).flaws = []) :
    (lexeme = .plain '@' ∧ (takePrelude 0 (takeName rest).2).2 = none) ∨
      (ofLexeme start lexeme rest).Finishes start (lexeme :: rest) (ofLexemes start) := by
  obtain ⟨step, -, hview⟩ := exists_view start lexeme rest
  cases hview with
  | @comment body =>
      refine .inr ⟨⟨[], .comment body, rfl, trivial, fun other => rfl⟩, ?_⟩
      exact List.forall_mem_singleton.mpr rfl
  | openComment | brace => cases hflaws
  | @blank c hblank =>
      have hstep (other : List Lexeme) :
          ofLexeme start (.plain c) other = ⟨.nothing, [], start + 1, other⟩ := by
        rw [ofLexeme, if_pos hblank]
      rw [hstep]
      refine .inr ⟨⟨[], .plain c, rfl, ne_of_class hblank (by decide), hstep⟩, ?_⟩
      exact List.forall_mem_nil _
  | atRule =>
      by_cases hending : (takePrelude 0 (takeName rest).2).2 = none
      · exact .inl ⟨rfl, hending⟩
      · obtain ⟨⟨taken, last, htaken, hclosed, hread⟩, hspan⟩ := finishes_ofAtRule hflaws hending
        refine .inr ⟨⟨.plain '@' :: taken, last, ?_, hclosed, hread⟩, hspan⟩
        rw [List.cons_append]
        exact congrArg _ htaken
  | style hstyle => exact .inr (.of_style (hstyle start) hflaws)

/-- What a step that finishes has taken it takes before any other lexemes too. -/
theorem Step.Finishes.exists_taken {start : Nat} {lexeme : Lexeme}
    (h : (ofLexeme start lexeme rest).Finishes start (lexeme :: rest) (ofLexemes start)) :
    ∃ taken last, lexeme :: rest = taken ++ last :: (ofLexeme start lexeme rest).rest ∧
      last.IsClosed ∧
      (ofLexeme start lexeme rest).next = start + byteLength (textOf (taken ++ [last])) ∧
      ∀ other, ∃ first more, taken ++ last :: other = first :: more ∧
        ofLexeme start first more = { ofLexeme start lexeme rest with rest := other } ∧
        (ofLexeme start first more).Finishes start (first :: more) (ofLexemes start) := by
  obtain ⟨⟨taken, last, htaken, hclosed, hread⟩, hspan⟩ := h
  refine ⟨taken, last, htaken, hclosed, ?_, fun other => ?_⟩
  · obtain ⟨text, hreads⟩ := reads_ofLexeme start lexeme rest
    have hsplit := hreads.split
    rw [hreads.next_eq]
    rw [htaken, List.append_cons, textOf_append] at hsplit
    rw [List.append_cancel_right hsplit]
  · obtain ⟨first, more, hmore⟩ : ∃ first more, taken ++ last :: other = first :: more :=
      List.exists_cons_of_ne_nil (by simp)
    have hstep := hread other
    rw [hmore] at hstep
    refine ⟨first, more, hmore, hstep, ?_⟩
    rw [show ofLexeme start first more = _ from hstep]
    exact ⟨⟨taken, last, hmore.symm, hclosed, hread⟩, hspan⟩

/-! Every step leaves the end of its lexemes. -/

theorem suffix_of_takePrelude {depth : Nat} {prelude : List Lexeme} {stop : Stop}
    (h : takePrelude depth lexemes = (prelude, some (stop, rest))) : rest <:+ lexemes := by
  refine ⟨prelude ++ [.plain stop.mark], ?_⟩
  rw [takePrelude_eq_some h, List.append_assoc]
  rfl

theorem suffix_of_takeBlock? {depth : Nat} {body : List Lexeme}
    (h : takeBlock? depth lexemes = some (body, rest)) : rest <:+ lexemes := by
  refine ⟨body ++ [.plain '\x7d'], ?_⟩
  rw [takeBlock?_append h, List.append_assoc]
  rfl

theorem Step.rest_suffix_ofAtRule (start : Nat) (lexemes : List Lexeme) :
    (ofAtRule start lexemes).rest <:+ lexemes := by
  obtain ⟨name, tail, step, hname, hstep, hview⟩ := exists_atRuleView start lexemes
  have htail : tail <:+ lexemes := ⟨_, eq_of_takeName hname⟩
  rw [hstep]
  cases hview with
  | unended | unclosed => exact List.nil_suffix
  | semicolon hprelude | closing hprelude => exact (suffix_of_takePrelude hprelude).trans htail
  | media hprelude hblock | block hprelude hblock =>
      exact (suffix_of_takeBlock? hblock).trans ((suffix_of_takePrelude hprelude).trans htail)

theorem Step.rest_suffix_ofStyle (start : Nat) (lexemes : List Lexeme) :
    (ofStyle start lexemes).rest <:+ lexemes := by
  obtain ⟨step, hstep, hview⟩ := exists_styleView start lexemes
  rw [hstep]
  cases hview with
  | unended | unclosed => exact List.nil_suffix
  | semicolon hprelude | closing hprelude => exact suffix_of_takePrelude hprelude
  | block hprelude hblock =>
      exact (suffix_of_takeBlock? hblock).trans (suffix_of_takePrelude hprelude)

theorem Step.rest_suffix_ofLexeme (start : Nat) (lexeme : Lexeme) (rest : List Lexeme) :
    (ofLexeme start lexeme rest).rest <:+ lexeme :: rest := by
  have hrest : rest <:+ lexeme :: rest := List.suffix_cons ..
  obtain ⟨step, hstep, hview⟩ := exists_view start lexeme rest
  rw [hstep]
  cases hview with
  | comment | openComment | blank | brace => exact hrest
  | atRule => exact (rest_suffix_ofAtRule start rest).trans hrest
  | style => exact rest_suffix_ofStyle start _

theorem Step.exists_taken (start : Nat) (lexeme : Lexeme) (rest : List Lexeme) :
    ∃ taken, lexeme :: rest = taken ++ (ofLexeme start lexeme rest).rest ∧ taken ≠ [] ∧
      (ofLexeme start lexeme rest).Reads start (textOf (lexeme :: rest)) (textOf taken) := by
  obtain ⟨text, hreads⟩ := reads_ofLexeme start lexeme rest
  obtain ⟨taken, htaken⟩ := rest_suffix_ofLexeme start lexeme rest
  have hsplit := hreads.split
  rw [← htaken, textOf_append] at hsplit
  refine ⟨taken, htaken.symm, ?_, List.append_cancel_right hsplit ▸ hreads⟩
  rintro rfl
  have hlt := length_rest_lt start lexeme rest
  rw [List.nil_append] at htaken
  rw [htaken] at hlt
  exact Nat.lt_irrefl _ hlt

theorem Step.ofLexeme_at (start : Nat) (lexemes : List Lexeme) :
    ofLexeme start (.plain '@') lexemes = ofAtRule start lexemes := rfl

theorem takePrelude_at (lexemes : List Lexeme) :
    takePrelude 0 (.plain '@' :: lexemes) =
      (.plain '@' :: (takePrelude 0 lexemes).1, (takePrelude 0 lexemes).2) := rfl

theorem textOf_atRule (name : List Char) (prelude : List Lexeme) :
    textOf (.plain '@' :: (name.map .plain ++ prelude)) = '@' :: name ++ textOf prelude := by
  rw [textOf_cons, textOf_append, Lexeme.textOf_map_plain]
  rfl

theorem takePrelude_atRule {name : List Char} {tail : List Lexeme} {stop : Stop}
    (hname : takeName lexemes = (name, tail))
    (hprelude : takePrelude 0 tail = (prelude, some (stop, rest))) (other : List Lexeme) :
    takePrelude 0 (.plain '@' :: (name.map .plain ++ prelude) ++ .plain stop.mark :: other) =
      (.plain '@' :: (name.map .plain ++ prelude), some (stop, other)) := by
  rw [List.cons_append, List.append_assoc, takePrelude_at,
    takePrelude_map_plain (isNameChar_of_takeName hname), takePrelude_append_any hprelude]

/-- A media rule has a block between two braces, the first of which ends its prelude. -/
theorem Step.exists_opening_of_media {start bodyStart : Nat} {lexeme : Lexeme} {span : Span}
    (h : (ofLexeme start lexeme rest).item = .media bodyStart body span) :
    ∃ opening after, lexeme :: rest = opening ++ .plain '\x7b' :: (body ++ .plain '\x7d' :: after) ∧
      (∀ other, takePrelude 0 (opening ++ .plain '\x7b' :: other) =
        (opening, some (.opening, other))) ∧
      (∀ other, takeBlock? 0 (body ++ .plain '\x7d' :: other) = some (body, other)) ∧
      bodyStart = start + byteLength (textOf opening) + 1 ∧
      span = ⟨start, bodyStart + byteLength (textOf body) + 1⟩ := by
  obtain ⟨step, hstep, hview⟩ := exists_view start lexeme rest
  rw [hstep] at h
  cases hview with
  | comment | openComment | blank | brace => cases h
  | style => exact absurd h (item_ofStyle_ne_media _ _ _ _ _)
  | atRule =>
      obtain ⟨name, tail, step, hname, hatRule, hview⟩ := exists_atRuleView start rest
      have hrest := eq_of_takeName hname
      rw [hatRule] at h
      cases hview with
      | unended | semicolon | closing | unclosed | block => cases h
      | @media prelude inside body after text stop hprelude hblock htext hstop =>
          cases h
          rw [← textOf_atRule] at htext
          refine ⟨.plain '@' :: (name.map .plain ++ prelude), after, ?_,
            takePrelude_atRule hname hprelude, takeBlock?_append_any hblock, by rw [htext], ?_⟩
          · rw [← hrest, takePrelude_eq_some hprelude, takeBlock?_append hblock]
            simp [Stop.mark]
          · rw [hstop, sizeOf_eq_byteLength]

end StyleSplit.Stylesheet
