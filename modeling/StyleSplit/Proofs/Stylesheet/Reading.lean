import StyleSplit.Proofs.Stylesheet.Layout
import StyleSplit.Stylesheet.Parser

/-! Reading a stylesheet lays its rules out in its text, and what is in no rule
is white space unless a flaw was met. -/

namespace StyleSplit

open Text (byteLength isWhite)

namespace Lexeme

theorem textOf_cons (lexeme : Lexeme) (lexemes : List Lexeme) :
    textOf (lexeme :: lexemes) = lexeme.text ++ textOf lexemes :=
  List.flatMap_cons

theorem textOf_append (first second : List Lexeme) :
    textOf (first ++ second) = textOf first ++ textOf second :=
  List.flatMap_append

theorem textOf_map_plain (text : List Char) : textOf (text.map plain) = text := by
  induction text with
  | nil => rfl
  | cons c text ih => rw [List.map_cons, textOf_cons, ih]; rfl

theorem sizeOf_eq_byteLength (lexemes : List Lexeme) :
    Lexeme.sizeOf lexemes = byteLength (textOf lexemes) := by
  induction lexemes with
  | nil => rfl
  | cons lexeme lexemes ih =>
      rw [textOf_cons, Text.byteLength_append, ← ih]
      rfl

theorem text_ne_nil (lexeme : Lexeme) : lexeme.text ≠ [] := by
  cases lexeme with
  | escape c => cases c <;> simp [text]
  | _ => simp [text]

theorem textOf_ofText (text : List Char) : textOf (ofText text) = text := by
  fun_induction ofText text with
  | case1 => rfl
  | case2 => rfl
  | case3 d text ih =>
      rw [textOf_cons, ih]
      rfl
  | case4 c text _ _ ih =>
      rw [textOf_cons, ih, Lexeme.text, List.cons_append, takeQuoted_append]
  | case5 c text _ _ hmark body rest htake ih =>
      obtain ⟨rfl, hstar⟩ := hmark
      obtain ⟨rest, rfl⟩ := List.head?_eq_some_iff.mp hstar
      rw [textOf_cons, ih, Lexeme.text]
      rw [List.tail_cons] at htake
      rw [takeComment?_append htake]
      simp
  | case6 c text _ _ hmark _ =>
      obtain ⟨rfl, hstar⟩ := hmark
      obtain ⟨rest, rfl⟩ := List.head?_eq_some_iff.mp hstar
      simp [textOf, Lexeme.text]
  | case7 c text _ _ _ ih =>
      rw [textOf_cons, ih]
      rfl

end Lexeme

namespace Stylesheet

open Lexeme (textOf textOf_append textOf_cons sizeOf_eq_byteLength)

def Stop.mark : Stop → Char
  | .semicolon => ';'
  | .opening => '\x7b'
  | .closing => '\x7d'

theorem Stop.mark_of_ofChar? {c : Char} {stop : Stop} (h : Stop.ofChar? c = some stop) :
    c = stop.mark := by
  unfold Stop.ofChar? at h
  split at h
  · cases h; assumption
  · split at h
    · cases h; assumption
    · split at h
      · cases h; assumption
      · cases h

theorem Stop.utf8Size_mark (stop : Stop) : stop.mark.utf8Size = 1 := by
  cases stop <;> decide

theorem takePrelude_eq_none {depth : Nat} {lexemes prelude : List Lexeme}
    (h : takePrelude depth lexemes = (prelude, none)) : lexemes = prelude := by
  have happend := takePrelude_append depth lexemes
  rwa [h] at happend

theorem takePrelude_eq_some {depth : Nat} {lexemes prelude rest : List Lexeme} {stop : Stop}
    (h : takePrelude depth lexemes = (prelude, some (stop, rest))) :
    lexemes = prelude ++ .plain stop.mark :: rest := by
  fun_induction takePrelude depth lexemes generalizing prelude with
  | case1 => simp at h
  | case2 depth c lexemes found hstop =>
      split at hstop
      · simp only [Prod.mk.injEq, Option.some.injEq] at h
        obtain ⟨rfl, rfl, rfl⟩ := h
        rw [← Stop.mark_of_ofChar? hstop, List.nil_append]
      · cases hstop
  | case3 depth c lexemes _ first second htake ih =>
      simp only [Prod.mk.injEq] at h
      obtain ⟨rfl, rfl⟩ := h
      rw [ih htake, List.cons_append]
  | case4 depth lexeme lexemes _ first second htake ih =>
      simp only [Prod.mk.injEq] at h
      obtain ⟨rfl, rfl⟩ := h
      rw [ih htake, List.cons_append]

theorem eq_of_takeName {lexemes tail : List Lexeme} {name : List Char}
    (h : takeName lexemes = (name, tail)) : name.map .plain ++ tail = lexemes := by
  have happend := takeName_append lexemes
  rwa [h] at happend

theorem textOf_takeName (lexemes : List Lexeme) :
    textOf lexemes = (takeName lexemes).1 ++ textOf (takeName lexemes).2 := by
  conv_lhs => rw [← takeName_append lexemes]
  rw [textOf_append, Lexeme.textOf_map_plain]

theorem textOf_takePrelude {depth : Nat} {lexemes prelude rest : List Lexeme} {stop : Stop}
    (h : takePrelude depth lexemes = (prelude, some (stop, rest))) :
    textOf lexemes = textOf prelude ++ stop.mark :: textOf rest := by
  rw [takePrelude_eq_some h, textOf_append, textOf_cons]
  rfl

theorem textOf_takeBlock? {depth : Nat} {lexemes body rest : List Lexeme}
    (h : takeBlock? depth lexemes = some (body, rest)) :
    textOf lexemes = textOf body ++ '\x7d' :: textOf rest := by
  rw [takeBlock?_append h, textOf_append, textOf_cons]
  rfl

theorem exists_trimEnd (text : List Char) :
    ∃ gap, text = Text.trimEnd text ++ gap ∧ ∀ c ∈ gap, isWhite c = true := by
  refine ⟨(text.reverse.takeWhile isWhite).reverse, ?_, ?_⟩
  · rw [Text.trimEnd, ← List.reverse_append, List.takeWhile_append_dropWhile,
      List.reverse_reverse]
  · intro c hc
    exact List.mem_takeWhile_imp (List.mem_reverse.mp hc)

theorem trimEnd_ne_nil {c : Char} {text : List Char} (hc : isWhite c = false) :
    Text.trimEnd (c :: text) ≠ [] := by
  intro hnil
  obtain ⟨gap, htext, hgap⟩ := exists_trimEnd (c :: text)
  rw [hnil, List.nil_append] at htext
  have hwhite := hgap c (htext ▸ List.mem_cons_self)
  rw [hc] at hwhite
  contradiction

/-- What an item takes from `text`, which starts at byte `start`. When the text
is clean there is only white space in it that belongs to no rule. -/
inductive Item.Reads (start : Nat) (text : List Char) (clean : Prop) : Item → Prop
  | nothing (free : clean → ∀ c ∈ text, isWhite c = true) : Reads start text clean .nothing
  | rule {within gap rule} (shape : text = within ++ gap)
      (covers : ∀ loose, Covers loose start within rule)
      (free : clean → ∀ c ∈ gap, isWhite c = true) : Reads start text clean (.rule rule)
  | media {opening body bodyStart span}
      (shape : text = opening ++ '\x7b' :: (textOf body ++ ['\x7d']))
      (bodyStart_eq : bodyStart = start + byteLength opening + 1)
      (span_eq : span = ⟨start, start + byteLength text⟩) :
      Reads start text clean (.media bodyStart body span)

/-- A step that starts at byte `start` of `all` reads a first part of it. -/
structure Step.Reads (step : Step) (start : Nat) (all text : List Char) : Prop where
  split : all = text ++ textOf step.rest
  next_eq : step.next = start + byteLength text
  item : step.item.Reads start text (step.flaws = [])

theorem byteLength_concat_mark (text : List Char) (stop : Stop) :
    byteLength (text ++ [stop.mark]) = byteLength text + 1 := by
  simp [stop.utf8Size_mark]

theorem byteLength_block (text block : List Char) :
    byteLength (text ++ '\x7b' :: (block ++ ['\x7d'])) =
      byteLength text + 1 + byteLength block + 1 := by
  simp [Text.utf8Size_leftBrace, Text.utf8Size_rightBrace]
  omega

theorem byteLength_unclosed (text : List Char) (rest : List Lexeme) :
    byteLength (text ++ '\x7b' :: textOf rest) = byteLength text + 1 + Lexeme.sizeOf rest := by
  simp [Text.utf8Size_leftBrace, sizeOf_eq_byteLength]
  omega

theorem append_takeBlock? {rest body after : List Lexeme} (text : List Char)
    (h : takeBlock? 0 rest = some (body, after)) :
    text ++ '\x7b' :: textOf rest =
      (text ++ '\x7b' :: (textOf body ++ ['\x7d'])) ++ textOf after := by
  rw [textOf_takeBlock? h]
  simp

theorem Step.reads_ofAtRule (start : Nat) (lexemes : List Lexeme) :
    ∃ text, (ofAtRule start lexemes).Reads start ('@' :: textOf lexemes) text := by
  obtain ⟨name, tail, step, hname, hstep, hview⟩ := exists_atRuleView start lexemes
  have hall : '@' :: textOf lexemes = '@' :: name ++ textOf tail := by
    rw [textOf_takeName lexemes, hname]
    rfl
  have hat : isWhite '@' = false := by decide
  rw [hstep]
  cases hview with
  | unended hprelude htext =>
      rw [takePrelude_eq_none hprelude, ← htext] at hall
      obtain ⟨gap, hgap, hwhite⟩ := exists_trimEnd _
      refine ⟨_, hall.trans (List.append_nil _).symm, rfl, ?_⟩
      exact .rule hgap (fun _ => .atRule (htext ▸ trimEnd_ne_nil hat) rfl) fun _ => hwhite
  | @semicolon prelude rest text hprelude htext =>
      rw [textOf_takePrelude hprelude, ← List.append_assoc, ← htext, List.append_cons] at hall
      have hbytes := byteLength_concat_mark text .semicolon
      refine ⟨_, hall, by dsimp only; omega, ?_⟩
      exact .rule (List.append_nil _).symm
        (fun _ => .atRule (by simp) (by rw [hbytes, Nat.add_assoc])) (by simp)
  | @closing prelude rest text hprelude htext =>
      rw [textOf_takePrelude hprelude, ← List.append_assoc, ← htext, List.append_cons] at hall
      have hbytes := byteLength_concat_mark text .closing
      obtain ⟨gap, hgap, -⟩ := exists_trimEnd text
      have hshape : text ++ [Stop.closing.mark] =
          Text.trimEnd text ++ (gap ++ [Stop.closing.mark]) := by
        rw [← List.append_assoc, ← hgap]
      refine ⟨_, hall, by dsimp only; omega, ?_⟩
      exact .rule hshape (fun _ => .atRule (htext ▸ trimEnd_ne_nil hat) rfl) (by simp)
  | @unclosed prelude rest text stop hprelude _ htext hstop =>
      rw [textOf_takePrelude hprelude, ← List.append_assoc, ← htext] at hall
      have hsize : stop = start + byteLength ('@' :: textOf lexemes) := by
        rw [hstop, hall, Stop.mark, byteLength_unclosed]
        omega
      refine ⟨_, (List.append_nil _).symm, hsize, ?_⟩
      exact .rule (List.append_nil _).symm (fun _ => .atRule (by simp) (by rw [hsize])) (by simp)
  | @media prelude rest body after text stop hprelude hblock htext hstop =>
      rw [textOf_takePrelude hprelude, ← List.append_assoc, ← htext] at hall
      have hsize := byteLength_block text (textOf body)
      rw [sizeOf_eq_byteLength] at hstop
      refine ⟨_, hall.trans (append_takeBlock? text hblock), by dsimp only; omega, ?_⟩
      exact .media rfl rfl (by rw [hsize]; congr 1; omega)
  | @block prelude rest body after text stop hprelude hblock htext hstop =>
      rw [textOf_takePrelude hprelude, ← List.append_assoc, ← htext] at hall
      have hsize := byteLength_block text (textOf body)
      rw [sizeOf_eq_byteLength] at hstop
      refine ⟨_, hall.trans (append_takeBlock? text hblock), by dsimp only; omega, ?_⟩
      exact .rule (List.append_nil _).symm
        (fun _ => .atRule (by simp) (by rw [hsize]; congr 1; omega)) (by simp)

theorem Step.reads_ofStyle (start : Nat) {lexemes : List Lexeme} (hne : lexemes ≠ []) :
    ∃ text, (ofStyle start lexemes).Reads start (textOf lexemes) text := by
  have hall : textOf lexemes ≠ [] := by
    obtain ⟨lexeme, rest, rfl⟩ := List.exists_cons_of_ne_nil hne
    rw [textOf_cons]
    exact List.append_ne_nil_of_left_ne_nil lexeme.text_ne_nil _
  obtain ⟨step, hstep, hview⟩ := exists_styleView start lexemes
  rw [hstep]
  cases hview with
  | unended hprelude hstop =>
      rw [← takePrelude_eq_none hprelude, sizeOf_eq_byteLength] at hstop
      exact ⟨_, (List.append_nil _).symm, hstop, .nothing (by simp)⟩
  | @semicolon prelude rest stop hprelude hstop =>
      have htext := textOf_takePrelude hprelude
      have hbytes := byteLength_concat_mark (textOf prelude) .semicolon
      rw [List.append_cons] at htext
      rw [sizeOf_eq_byteLength] at hstop
      exact ⟨_, htext, by dsimp only; omega, .nothing (by simp)⟩
  | @closing prelude rest stop hprelude hstop =>
      have htext := textOf_takePrelude hprelude
      have hbytes := byteLength_concat_mark (textOf prelude) .closing
      rw [List.append_cons] at htext
      rw [sizeOf_eq_byteLength] at hstop
      exact ⟨_, htext, by dsimp only; omega, .nothing (by simp)⟩
  | @unclosed prelude rest stop flaws hprelude hblock hflaws hstop =>
      have hsize : stop = start + byteLength (textOf lexemes) := by
        rw [hstop, textOf_takePrelude hprelude, Stop.mark, byteLength_unclosed,
          sizeOf_eq_byteLength prelude]
        omega
      refine ⟨_, (List.append_nil _).symm, hsize, ?_⟩
      exact .rule (List.append_nil _).symm (fun _ => .style hall (by rw [hsize])) (by simp)
  | @block prelude rest body after stop flaws hprelude hblock hflaws hstop =>
      have htext := textOf_takePrelude hprelude
      have hsize := byteLength_block (textOf prelude) (textOf body)
      rw [sizeOf_eq_byteLength, sizeOf_eq_byteLength] at hstop
      refine ⟨_, htext.trans (append_takeBlock? _ hblock), by dsimp only; omega, ?_⟩
      exact .rule (List.append_nil _).symm
        (fun _ => .style (by simp) (by rw [hsize]; congr 1; omega)) (by simp)

theorem utf8Size_of_isBlank {c : Char} (h : Text.isBlank c = true) : c.utf8Size = 1 := by
  simp only [Text.isBlank, Bool.or_eq_true, beq_iff_eq] at h
  rcases h with (((rfl | rfl) | rfl) | rfl) | rfl <;> decide

theorem Step.reads_ofLexeme (start : Nat) (lexeme : Lexeme) (rest : List Lexeme) :
    ∃ text, (ofLexeme start lexeme rest).Reads start (textOf (lexeme :: rest)) text := by
  obtain ⟨step, hstep, hview⟩ := exists_view start lexeme rest
  rw [hstep]
  cases hview with
  | comment hstop =>
      refine ⟨_, textOf_cons .., hstop, ?_⟩
      exact .rule (List.append_nil _).symm (fun _ => .comment rfl (by rw [hstop]; rfl)) (by simp)
  | @openComment body stop hstop =>
      have hshape : (Lexeme.openComment body).text = '/' :: '*' :: (body ++ []) := by
        simp [Lexeme.text]
      refine ⟨_, textOf_cons .., hstop, ?_⟩
      exact .rule (List.append_nil _).symm (fun _ => .comment hshape (by rw [hstop]; rfl)) (by simp)
  | @blank c hblank =>
      refine ⟨[c], textOf_cons .., by simp [utf8Size_of_isBlank hblank], .nothing ?_⟩
      intro _ d hd
      rw [List.mem_singleton.mp hd]
      exact Text.isWhite_of_isBlank hblank
  | brace =>
      exact ⟨['\x7d'], textOf_cons .., by simp [Text.utf8Size_rightBrace], .nothing (by simp)⟩
  | atRule => exact reads_ofAtRule start rest
  | style => exact reads_ofStyle start (List.cons_ne_nil lexeme rest)

def Item.reading : Item → Reading
  | .nothing => {}
  | .rule found => ⟨[found], []⟩
  | .media bodyStart body span =>
      ⟨[.media (Reading.ofLexemes bodyStart body).rules span],
        (Reading.ofLexemes bodyStart body).flaws⟩

theorem Reading.ofLexemes_cons (start : Nat) (lexeme : Lexeme) (lexemes : List Lexeme)
    {step : Step} (hstep : Step.ofLexeme start lexeme lexemes = step) :
    ofLexemes start (lexeme :: lexemes) =
      ⟨step.item.reading.rules ++ (ofLexemes step.next step.rest).rules,
        step.flaws ++ step.item.reading.flaws ++
          (ofLexemes step.next step.rest).flaws⟩ := by
  subst hstep
  rw [ofLexemes]
  dsimp only
  split <;> rename_i hitem <;> rw [hitem] <;> rfl

theorem Reading.flaws_cons_eq_nil {start : Nat} {lexeme : Lexeme} {lexemes : List Lexeme}
    {step : Step} (hstep : Step.ofLexeme start lexeme lexemes = step)
    (h : (ofLexemes start (lexeme :: lexemes)).flaws = []) :
    step.flaws = [] ∧ step.item.reading.flaws = [] ∧
      (ofLexemes step.next step.rest).flaws = [] := by
  rw [ofLexemes_cons start lexeme lexemes hstep] at h
  rwa [List.append_eq_nil_iff, List.append_eq_nil_iff, and_assoc] at h

/-- The block of a media rule is read on its own, and is shorter like what follows a step. -/
@[elab_as_elim]
theorem Reading.induction {motive : Nat → List Lexeme → Prop} (nil : ∀ start, motive start [])
    (cons : ∀ start lexeme lexemes,
      (∀ bodyStart body span, (Step.ofLexeme start lexeme lexemes).item =
        .media bodyStart body span → motive bodyStart body) →
      motive (Step.ofLexeme start lexeme lexemes).next
        (Step.ofLexeme start lexeme lexemes).rest →
      motive start (lexeme :: lexemes))
    (start : Nat) (lexemes : List Lexeme) : motive start lexemes := by
  induction hlength : lexemes.length using Nat.strongRecOn generalizing start lexemes with
  | ind length ih =>
      subst hlength
      cases lexemes with
      | nil => exact nil start
      | cons lexeme lexemes =>
          apply cons
          · intro bodyStart body span hitem
            exact ih _ (Step.length_body_lt hitem) bodyStart body rfl
          · exact ih _ (Step.length_rest_lt start lexeme lexemes) _ _ rfl

theorem Item.Reads.layout {item : Item} {start : Nat} {text rest : List Char}
    {clean : Prop} {loose : Char → Prop} {rules : List Rule}
    (h : item.Reads start text clean)
    (hloose : ∀ c, (clean → isWhite c = true) → loose c)
    (hblock : ∀ bodyStart body span, item = .media bodyStart body span →
      Layout loose bodyStart (textOf body) (Reading.ofLexemes bodyStart body).rules)
    (hrest : Layout loose (start + byteLength text) rest rules) :
    Layout loose start (text ++ rest) (item.reading.rules ++ rules) := by
  cases h with
  | nothing free => exact hrest.skip fun c hc => hloose c fun hclean => free hclean c hc
  | @rule within gap _ shape covers free =>
      subst shape
      have hgap : ∀ c ∈ gap, loose c := fun c hc => hloose c fun hclean => free hclean c hc
      rw [Text.byteLength_append, ← Nat.add_assoc] at hrest
      rw [List.append_assoc]
      exact .cons_tight (covers loose) (hrest.skip hgap)
  | media shape bodyStart_eq span_eq =>
      subst bodyStart_eq
      exact .cons_tight (.media shape span_eq (hblock _ _ _ rfl)) hrest

/-- A clean reading leaves out white space only, at every depth. -/
theorem Reading.layout_ofLexemes (start : Nat) (lexemes : List Lexeme) :
    Layout (fun c => (ofLexemes start lexemes).flaws = [] → isWhite c = true) start
      (textOf lexemes) (ofLexemes start lexemes).rules := by
  induction start, lexemes using Reading.induction with
  | nil start =>
      rw [ofLexemes]
      exact .nil (by simp [textOf])
  | cons start lexeme lexemes hbody hrest =>
      obtain ⟨text, hreads⟩ := Step.reads_ofLexeme start lexeme lexemes
      rw [hreads.split]
      generalize hstep : Step.ofLexeme start lexeme lexemes = step at *
      rw [ofLexemes_cons start lexeme lexemes hstep]
      dsimp only
      apply hreads.item.layout
      · intro c hwhite hflaws
        rw [List.append_eq_nil_iff, List.append_eq_nil_iff] at hflaws
        exact hwhite hflaws.1.1
      · intro bodyStart body span hitem
        refine (hbody bodyStart body span hitem).mono ?_
        intro c hwhite hflaws
        rw [List.append_eq_nil_iff, List.append_eq_nil_iff, hitem] at hflaws
        exact hwhite hflaws.1.2
      · rw [← hreads.next_eq]
        refine hrest.mono ?_
        intro c hwhite hflaws
        rw [List.append_eq_nil_iff] at hflaws
        exact hwhite hflaws.2

theorem Reading.ofText_of_head? {text : List Char} (h : text.head? ≠ some '\ufeff') :
    ofText text = ofLexemes 0 (Lexeme.ofText text) := by
  unfold ofText
  split
  · exact absurd rfl h
  · rfl

def Marks (mark rest : List Char) : Prop :=
  mark = ['\ufeff'] ∨ mark = [] ∧ rest.head? ≠ some '\ufeff'

theorem exists_marks (text : List Char) : ∃ mark rest, text = mark ++ rest ∧ Marks mark rest := by
  by_cases hhead : text.head? = some '\ufeff'
  · obtain ⟨rest, rfl⟩ := List.head?_eq_some_iff.mp hhead
    exact ⟨['\ufeff'], rest, rfl, .inl rfl⟩
  · exact ⟨[], text, rfl, .inr ⟨rfl, hhead⟩⟩

namespace Marks

variable {mark rest : List Char}

theorem ofText (h : Marks mark rest) :
    Reading.ofText (mark ++ rest) = Reading.ofLexemes (byteLength mark) (Lexeme.ofText rest) := by
  rcases h with rfl | ⟨rfl, hhead⟩
  · rfl
  · exact Reading.ofText_of_head? hhead

theorem append {other : List Char} (h : Marks mark rest)
    (hother : other.head? ≠ some '\ufeff') : Marks mark (rest ++ other) := by
  refine h.imp_right fun ⟨hmark, hhead⟩ => ⟨hmark, ?_⟩
  cases rest with
  | nil => exact hother
  | cons c rest => exact hhead

theorem left {other : List Char} (h : Marks mark (rest ++ other)) : Marks mark rest := by
  refine h.imp_right fun ⟨hmark, hhead⟩ => ⟨hmark, ?_⟩
  cases rest with
  | nil => simp
  | cons c rest => exact hhead

end Marks

theorem Reading.exists_ofText (text : List Char) :
    ∃ mark rest, text = mark ++ rest ∧ (mark = [] ∨ mark = ['\ufeff']) ∧
      ofText text = ofLexemes (byteLength mark) (Lexeme.ofText rest) := by
  obtain ⟨mark, rest, rfl, hmarks⟩ := exists_marks text
  exact ⟨mark, rest, rfl, hmarks.symm.imp_left And.left, hmarks.ofText⟩

theorem Reading.exists_unmarked {text : List Char} (h : '\ufeff' ∉ text.tail) :
    ∃ before rest, text = before ++ rest ∧ '\ufeff' ∉ rest ∧
      ofText text = ofLexemes (byteLength before) (Lexeme.ofText rest) := by
  obtain ⟨mark, rest, rfl, hmarks⟩ := exists_marks text
  refine ⟨mark, rest, rfl, ?_, hmarks.ofText⟩
  rcases hmarks with rfl | ⟨rfl, hhead⟩
  · exact h
  · cases rest with
    | nil => exact List.not_mem_nil
    | cons c rest =>
        intro hmem
        rcases List.mem_cons.mp hmem with rfl | hmem
        · exact hhead rfl
        · exact h hmem

theorem Reading.layout_ofText (text : List Char) :
    ∃ mark rest, text = mark ++ rest ∧ (mark = [] ∨ mark = ['\ufeff']) ∧
      Layout (fun c => (ofText text).flaws = [] → isWhite c = true) (byteLength mark)
        rest (ofText text).rules := by
  obtain ⟨mark, rest, htext, hmark, hreading⟩ := exists_ofText text
  have hlayout := layout_ofLexemes (byteLength mark) (Lexeme.ofText rest)
  rw [Lexeme.textOf_ofText, ← hreading] at hlayout
  exact ⟨mark, rest, htext, hmark, hlayout⟩

theorem flaws_eq_nil {text : String} (hclean : (ofText text).isClean = true) :
    (Reading.ofText text.toList).flaws = [] := by
  rwa [isClean, ofText, List.isEmpty_iff, List.map_eq_nil_iff] at hclean

end Stylesheet

end StyleSplit
