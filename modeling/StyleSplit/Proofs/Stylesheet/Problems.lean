import StyleSplit.Proofs.Stylesheet.Ended

/-! Problems are met from the start of a text to its end, and each of them stands in it. -/

namespace StyleSplit.Stylesheet

open Lexeme (textOf textOf_append textOf_cons)
open Text (byteLength)

structure InOrder (start stop : Nat) (flaws : List (Nat × Flaw)) : Prop where
  sorted : (flaws.map (·.1)).Pairwise (· ≤ ·)
  bounds : ∀ found ∈ flaws, start ≤ found.1 ∧ found.1 < stop

namespace InOrder

variable {start stop : Nat} {first second : List (Nat × Flaw)}

theorem nil (start stop : Nat) : InOrder start stop [] :=
  ⟨.nil, List.forall_mem_nil _⟩

theorem mono {outer last : Nat} (h : InOrder start stop first) (hstart : outer ≤ start)
    (hstop : stop ≤ last) : InOrder outer last first := by
  refine ⟨h.sorted, ?_⟩
  intro found hfound
  obtain ⟨hlow, hhigh⟩ := h.bounds found hfound
  exact ⟨hstart.trans hlow, hhigh.trans_le hstop⟩

theorem append (hfirst : InOrder start stop first) (hsecond : InOrder start stop second)
    (hcross : ∀ found ∈ first, ∀ later ∈ second, found.1 ≤ later.1) :
    InOrder start stop (first ++ second) := by
  constructor
  · rw [List.map_append, List.pairwise_append]
    refine ⟨hfirst.sorted, hsecond.sorted, ?_⟩
    intro offset hoffset later hlater
    obtain ⟨found, hfound, rfl⟩ := List.mem_map.mp hoffset
    obtain ⟨next, hnext, rfl⟩ := List.mem_map.mp hlater
    exact hcross found hfound next hnext
  · intro found hfound
    exact (List.mem_append.mp hfound).elim (hfirst.bounds found) (hsecond.bounds found)

theorem at_start (hall : ∀ found ∈ first, found.1 = start) (hlt : start < stop) :
    InOrder start stop first := by
  constructor
  · refine List.pairwise_of_forall_mem_list ?_
    intro offset hoffset later hlater
    obtain ⟨found, hfound, rfl⟩ := List.mem_map.mp hoffset
    obtain ⟨next, hnext, rfl⟩ := List.mem_map.mp hlater
    rw [hall found hfound, hall next hnext]
  · intro found hfound
    rw [hall found hfound]
    exact ⟨Nat.le_refl start, hlt⟩

end InOrder

/-- A step finds flaws where it starts, and after them at most a brace that ends it. -/
inductive Step.Finds (start : Nat) (step : Step) : Prop
  | here (found_eq : ∀ found ∈ step.flaws, found.1 = start)
  | brace {first : List (Nat × Flaw)} {stop : Nat} (found_eq : ∀ found ∈ first, found.1 = start)
      (flaws_eq : step.flaws = first ++ [(stop, .strayBrace)]) (next_eq : step.next = stop + 1)
      (start_le : start ≤ stop)
      (not_media : ∀ bodyStart body span, step.item ≠ .media bodyStart body span)

namespace Step

theorem Finds.inOrder {start : Nat} {step : Step} (h : step.Finds start)
    (hlt : start < step.next) : InOrder start step.next step.flaws := by
  cases h with
  | here found_eq => exact .at_start found_eq hlt
  | @brace first stop found_eq flaws_eq next_eq start_le _ =>
      rw [flaws_eq]
      have hbrace : InOrder stop step.next [(stop, .strayBrace)] :=
        .at_start (List.forall_mem_singleton.mpr rfl) (by omega)
      refine (InOrder.at_start found_eq hlt).append (hbrace.mono start_le (Nat.le_refl _)) ?_
      intro found hfound later hlater
      rw [found_eq found hfound, List.mem_singleton.mp hlater]
      exact start_le

theorem Finds.le_of_media {start bodyStart : Nat} {step : Step} {body : List Lexeme} {span : Span}
    (h : step.Finds start) (hitem : step.item = .media bodyStart body span)
    (hstart : start ≤ bodyStart) : ∀ found ∈ step.flaws, found.1 ≤ bodyStart := by
  cases h with
  | here found_eq =>
      intro found hfound
      rw [found_eq found hfound]
      exact hstart
  | brace _ _ _ _ not_media => exact absurd hitem (not_media bodyStart body span)

theorem finds_ofStyle (start : Nat) (lexemes : List Lexeme) :
    (ofStyle start lexemes).Finds start := by
  obtain ⟨step, hstep, hview⟩ := exists_styleView start lexemes
  have hhere (flaw : Flaw) : ∀ found ∈ [(start, flaw)], found.1 = start :=
    List.forall_mem_singleton.mpr rfl
  have hselector (text : List Char) : ∀ found ∈ (if text.all Text.isWhite then
      [(start, Flaw.selectorMissing)] else []), found.1 = start := by
    split <;> simp
  rw [hstep]
  cases hview with
  | unended | semicolon => exact .here (hhere _)
  | closing _ hstop =>
      exact .brace (hhere .blockMissing) rfl rfl (hstop ▸ Nat.le_add_right ..)
        fun _ _ _ => Item.noConfusion
  | unclosed _ _ hflaws =>
      subst hflaws
      exact .here (List.forall_mem_append.mpr ⟨hselector _, hhere _⟩)
  | block _ _ hflaws =>
      subst hflaws
      exact .here (hselector _)

theorem finds_ofAtRule (start : Nat) (lexemes : List Lexeme) :
    (ofAtRule start lexemes).Finds start := by
  obtain ⟨name, tail, step, -, hstep, hview⟩ := exists_atRuleView start lexemes
  have hnameless : ∀ found ∈ (if name = [] then [(start, Flaw.namelessAtRule)] else []),
      found.1 = start := by
    split <;> simp
  rw [hstep]
  cases hview with
  | unended | semicolon | media | block => exact .here hnameless
  | closing =>
      exact .brace hnameless rfl rfl (Nat.le_add_right ..) fun _ _ _ => Item.noConfusion
  | unclosed =>
      exact .here (List.forall_mem_append.mpr ⟨hnameless, List.forall_mem_singleton.mpr rfl⟩)

theorem finds_ofLexeme (start : Nat) (lexeme : Lexeme) (rest : List Lexeme) :
    (ofLexeme start lexeme rest).Finds start := by
  obtain ⟨step, hstep, hview⟩ := exists_view start lexeme rest
  rw [hstep]
  cases hview with
  | comment | blank => exact .here (List.forall_mem_nil _)
  | openComment | brace => exact .here (List.forall_mem_singleton.mpr rfl)
  | atRule => exact finds_ofAtRule start rest
  | style => exact finds_ofStyle start _

end Step

theorem Step.inOrder_flaws {start : Nat} {lexeme : Lexeme} {lexemes : List Lexeme}
    (hbody : ∀ bodyStart body span, (ofLexeme start lexeme lexemes).item =
      .media bodyStart body span → InOrder bodyStart (bodyStart + byteLength (textOf body))
        (Reading.ofLexemes bodyStart body).flaws)
    (hlt : start < (ofLexeme start lexeme lexemes).next) :
    InOrder start (ofLexeme start lexeme lexemes).next
      ((ofLexeme start lexeme lexemes).flaws ++
        (ofLexeme start lexeme lexemes).item.reading.flaws) := by
  have hfinds := finds_ofLexeme start lexeme lexemes
  have hhere := hfinds.inOrder hlt
  cases hitem : (ofLexeme start lexeme lexemes).item with
  | nothing => simpa only [Item.reading, List.append_nil] using hhere
  | rule found => simpa only [Item.reading, List.append_nil] using hhere
  | media bodyStart body span =>
      obtain ⟨opening, after, -, -, -, hstart, hspan⟩ := exists_opening_of_media hitem
      have hblock := hbody bodyStart body span hitem
      have hle : start ≤ bodyStart := by omega
      have hstop : span.stop ≤ (ofLexeme start lexeme lexemes).next := by
        have hrules : (ofLexeme start lexeme lexemes).item.reading.rules =
            [.media (Reading.ofLexemes bodyStart body).rules span] := by rw [hitem]; rfl
        exact stop_le_next (.top (by rw [hrules]; exact List.mem_cons_self))
      have hwithin : bodyStart + byteLength (textOf body) ≤
          (ofLexeme start lexeme lexemes).next := by
        rw [hspan] at hstop
        exact (Nat.le_succ _).trans hstop
      refine hhere.append (hblock.mono hle hwithin) ?_
      intro found hfound later hlater
      exact (hfinds.le_of_media hitem hle found hfound).trans (hblock.bounds later hlater).1

theorem Reading.inOrder_flaws (start : Nat) (lexemes : List Lexeme) :
    InOrder start (start + byteLength (textOf lexemes)) (ofLexemes start lexemes).flaws := by
  induction start, lexemes using Reading.induction with
  | nil start =>
      rw [ofLexemes]
      exact .nil start _
  | cons start lexeme lexemes hbody hrest =>
      obtain ⟨taken, htaken, hne, hreads⟩ := Step.exists_taken start lexeme lexemes
      have hpos : 0 < byteLength (textOf taken) := by
        obtain ⟨first, more, rfl⟩ := List.exists_cons_of_ne_nil hne
        rw [textOf_cons]
        exact Text.byteLength_pos (List.append_ne_nil_of_left_ne_nil first.text_ne_nil _)
      have hnext := hreads.next_eq
      have hstep := Step.inOrder_flaws hbody (by omega)
      have hstop : start + byteLength (textOf (lexeme :: lexemes)) =
          (Step.ofLexeme start lexeme lexemes).next +
            byteLength (textOf (Step.ofLexeme start lexeme lexemes).rest) := by
        rw [htaken, textOf_append, Text.byteLength_append, hnext, Nat.add_assoc]
      rw [ofLexemes_cons start lexeme lexemes rfl, hstop]
      refine (hstep.mono (Nat.le_refl _) (Nat.le_add_right ..)).append
        (hrest.mono (by omega) (Nat.le_refl _)) ?_
      intro found hfound later hlater
      exact ((hstep.bounds found hfound).2.trans_le (hrest.bounds later hlater).1).le

theorem Reading.inOrder_ofText (text : String) :
    InOrder 0 text.utf8ByteSize (ofText text.toList).flaws := by
  obtain ⟨mark, rest, htext, hmarks⟩ := exists_marks text.toList
  have hflaws := inOrder_flaws (byteLength mark) (Lexeme.ofText rest)
  rw [Lexeme.textOf_ofText, ← Text.byteLength_append, ← htext, Text.byteLength_toList] at hflaws
  rw [htext, hmarks.ofText]
  exact hflaws.mono (Nat.zero_le _) (Nat.le_refl _)

variable {text : String} {problem : ParseProblem}

theorem pairwise_offset_problems (text : String) :
    ((ofText text).problems.map (·.offset)).Pairwise (· ≤ ·) := by
  have hoffsets : (ofText text).problems.map (·.offset) =
      (Reading.ofText text.toList).flaws.map (·.1) := by
    rw [ofText, List.map_map]
    rfl
  rw [hoffsets]
  exact (Reading.inOrder_ofText text).sorted

theorem exists_char_of_mem_problems (h : problem ∈ (ofText text).problems) :
    ∃ before c after, text.toList = before ++ c :: after ∧ byteLength before = problem.offset := by
  obtain ⟨found, hfound, rfl⟩ := List.mem_map.mp h
  obtain ⟨-, hlt⟩ := (Reading.inOrder_ofText text).bounds found hfound
  obtain ⟨before, after, htext, hbefore, -⟩ :=
    Position.ofOffset?_eq_some_iff.mp (ofOffset?_of_mem_problems h)
  cases after with
  | nil =>
      rw [← Text.byteLength_toList, htext, List.append_nil, hbefore] at hlt
      exact absurd hlt (Nat.lt_irrefl _)
  | cons c after => exact ⟨before, c, after, htext, hbefore⟩

end StyleSplit.Stylesheet
