import StyleSplit.Proofs.Stylesheet.Depth

/-! What is opened inside a closed block is closed inside it. Reading a prelude passes over
braces in parentheses, and looking for the end of a block does not; the braces still open
when a prelude ends are closed in any case before the block around it ends. -/

namespace StyleSplit

def Flaw.isUnclosed : Flaw → Bool
  | unclosedComment | unclosedAtRule _ | unclosedRule => true
  | strayBrace | namelessAtRule | selectorMissing | blockMissing => false

open Text (byteLength)

theorem Rule.not_within_nil {rule : Rule} : ¬ Within [] rule := by
  intro h
  induction h with
  | top hmem => cases hmem
  | child _ _ ih => exact ih

theorem Rule.Within.of_append {first second : List Rule} {rule : Rule}
    (h : Within (first ++ second) rule) : Within first rule ∨ Within second rule := by
  induction h with
  | top hmem =>
      rcases List.mem_append.mp hmem with hfirst | hsecond
      · exact .inl (.top hfirst)
      · exact .inr (.top hsecond)
  | child _ hmem ih =>
      rcases ih with hfirst | hsecond
      · exact .inl (.child hfirst hmem)
      · exact .inr (.child hsecond hmem)

theorem Layout.exists_covers_of_within {loose : Char → Prop} {start : Nat} {text : List Char}
    {rules : List Rule} {rule : Rule} (h : Layout loose start text rules)
    (hrule : Rule.Within rules rule) :
    ∃ before within after, text = before ++ (within ++ after) ∧
      Covers loose (start + byteLength before) within rule := by
  induction hrule with
  | top hmem => exact h.exists_covers hmem
  | @child parent rule _ hmem ih =>
      obtain ⟨before, within, after, rfl, hparent⟩ := ih
      obtain ⟨opening, block, closing, rfl, -, hchildren⟩ := hparent.exists_children
      rcases hchildren with hnone | hlayout
      · rw [hnone] at hmem
        cases hmem
      · obtain ⟨first, inner, last, rfl, hcovers⟩ := hlayout.exists_covers hmem
        refine ⟨before ++ (opening ++ first), inner, last ++ (closing ++ after), by simp, ?_⟩
        simpa [Nat.add_assoc] using hcovers

namespace Stylesheet

open Lexeme (textOf textOf_append textOf_cons Lexed)

section Braces

variable {depth : Nat} {lexeme : Lexeme} {lexemes body rest : List Lexeme}

def depthAfter (depth : Nat) (lexeme : Lexeme) : Nat :=
  if lexeme = .plain '\x7b' then depth + 1
  else if lexeme = .plain '\x7d' then depth - 1
  else depth

theorem depthAfter_add (h : ¬ (lexeme = .plain '\x7d' ∧ depth = 0)) (outer : Nat) :
    depthAfter (depth + outer) lexeme = depthAfter depth lexeme + outer := by
  unfold depthAfter
  split
  · omega
  · split
    · rename_i hclosing
      have hopen : depth ≠ 0 := fun hzero => h ⟨hclosing, hzero⟩
      omega
    · rfl

/-- The braces open after some lexemes, or none when one too many is closed. -/
def bracesAfter (depth : Nat) : List Lexeme → Option Nat
  | [] => some depth
  | lexeme :: lexemes =>
      if lexeme = .plain '\x7d' ∧ depth = 0 then none
      else bracesAfter (depthAfter depth lexeme) lexemes

theorem bracesAfter_append (depth : Nat) (first second : List Lexeme) :
    bracesAfter depth (first ++ second) =
      (bracesAfter depth first).bind fun depth => bracesAfter depth second := by
  induction first generalizing depth with
  | nil => rfl
  | cons lexeme first ih =>
      rw [List.cons_append, bracesAfter, bracesAfter]
      split
      · rfl
      · exact ih _

theorem takeBlock?_cons (depth : Nat) (lexeme : Lexeme) (lexemes : List Lexeme) :
    takeBlock? depth (lexeme :: lexemes) =
      if lexeme = .plain '\x7d' ∧ depth = 0 then some ([], lexemes)
      else (takeBlock? (depthAfter depth lexeme) lexemes).map fun (body, rest) =>
        (lexeme :: body, rest) := rfl

theorem bracesAfter_of_takeBlock? (h : takeBlock? depth lexemes = some (body, rest)) :
    bracesAfter depth body = some 0 := by
  induction lexemes generalizing depth body with
  | nil => cases h
  | cons lexeme lexemes ih =>
      rw [takeBlock?_cons] at h
      split at h
      · rename_i hclose
        cases h
        rw [bracesAfter, hclose.2]
      · rename_i hopen
        obtain ⟨⟨within, after⟩, htake, heq⟩ := Option.map_eq_some_iff.mp h
        cases heq
        rw [bracesAfter, if_neg hopen]
        exact ih htake

/-- A block is closed if the braces open around it are, however many they are. -/
theorem exists_takeBlock? {outer : Nat}
    (h : bracesAfter (depth + (outer + 1)) lexemes = some 0) :
    ∃ body rest, takeBlock? depth lexemes = some (body, rest) := by
  induction lexemes generalizing depth with
  | nil => simp [bracesAfter] at h
  | cons lexeme lexemes ih =>
      rw [takeBlock?_cons]
      split
      · exact ⟨_, _, rfl⟩
      · rename_i hopen
        rw [bracesAfter, if_neg (by omega), depthAfter_add hopen] at h
        obtain ⟨body, rest, htake⟩ := ih h
        rw [htake]
        exact ⟨_, _, rfl⟩

end Braces

/-- Lexemes that stand in a closed block, up to its end. -/
structure Enclosed (lexemes : List Lexeme) : Prop where
  closes : ∃ depth, bracesAfter depth lexemes = some 0
  ended : ∀ body, .openComment body ∉ lexemes

namespace Enclosed

variable {lexemes first second body rest : List Lexeme}

theorem right (h : Enclosed (first ++ second)) : Enclosed second := by
  refine ⟨?_, fun body hbody => h.ended body (List.mem_append_right _ hbody)⟩
  obtain ⟨depth, hdepth⟩ := h.closes
  rw [bracesAfter_append] at hdepth
  obtain ⟨between, -, hbetween⟩ := Option.bind_eq_some_iff.mp hdepth
  exact ⟨between, hbetween⟩

theorem tail {lexeme : Lexeme} (h : Enclosed (lexeme :: rest)) : Enclosed rest :=
  right (show Enclosed ([lexeme] ++ rest) from h)

theorem takeBlock?_ne_none {prelude : List Lexeme} (h : Enclosed lexemes)
    (hprelude : takePrelude 0 lexemes = (prelude, some (.opening, rest))) :
    takeBlock? 0 rest ≠ none := by
  rw [takePrelude_eq_some hprelude] at h
  obtain ⟨depth, hdepth⟩ := h.right.closes
  rw [bracesAfter, if_neg (by simp [Stop.mark])] at hdepth
  change bracesAfter (depth + 1) rest = some 0 at hdepth
  rw [← Nat.zero_add (depth + 1)] at hdepth
  obtain ⟨body, after, htake⟩ := exists_takeBlock? hdepth
  rw [htake]
  exact Option.some_ne_none _

theorem of_takeBlock? (h : takeBlock? 0 lexemes = some (body, rest))
    (hended : ∀ comment, .openComment comment ∉ body) : Enclosed body :=
  ⟨⟨0, bracesAfter_of_takeBlock? h⟩, hended⟩

end Enclosed

theorem textOf_eq_nil {lexemes : List Lexeme} (h : textOf lexemes = []) : lexemes = [] := by
  cases lexemes with
  | nil => rfl
  | cons lexeme lexemes =>
      rw [textOf_cons] at h
      exact absurd (List.append_eq_nil_iff.mp h).1 lexeme.text_ne_nil

theorem openComment_not_mem {first second : List Lexeme} {lexeme : Lexeme}
    (h : Lexed (first ++ lexeme :: second)) (body : List Char) : .openComment body ∉ first := by
  intro hmem
  obtain ⟨before, after, rfl⟩ := List.append_of_mem hmem
  rw [List.append_assoc, List.cons_append] at h
  obtain ⟨⟨hnil, -⟩, -⟩ := h.right
  simpa using textOf_eq_nil hnil

def FoundIn (start : Nat) (lexemes : List Lexeme) (found : Nat × Flaw) : Prop :=
  ∃ before after, lexemes = before ++ after ∧ found.1 = start + byteLength (textOf before)

theorem FoundIn.at_start {start : Nat} (lexemes : List Lexeme) (flaw : Flaw) :
    FoundIn start lexemes (start, flaw) := ⟨[], lexemes, rfl, rfl⟩

/-- Where a step reports that something has no end it takes all there is, in no media rule,
and no block was closed around it. -/
structure Step.Reports (step : Step) (start : Nat) (lexemes : List Lexeme) : Prop where
  foundIn : ∀ found ∈ step.flaws, FoundIn start lexemes found
  unclosed : ∀ found ∈ step.flaws, found.2.isUnclosed = true →
    (Lexed lexemes → step.rest = []) ∧
      (∀ bodyStart body span, step.item ≠ .media bodyStart body span) ∧ ¬ Enclosed lexemes

section Reports

variable {start : Nat} {lexemes : List Lexeme}

theorem Step.Reports.of_closed {step : Step}
    (h : ∀ found ∈ step.flaws, FoundIn start lexemes found ∧ found.2.isUnclosed = false) :
    step.Reports start lexemes := by
  refine ⟨fun found hfound => (h found hfound).1, fun found hfound hunclosed => ?_⟩
  rw [(h found hfound).2] at hunclosed
  cases hunclosed

theorem Step.reports_ofStyle (start : Nat) (lexemes : List Lexeme) :
    (ofStyle start lexemes).Reports start lexemes := by
  obtain ⟨step, hstep, hview⟩ := exists_styleView start lexemes
  have hstart (flaw : Flaw) := @FoundIn.at_start start lexemes flaw
  rw [hstep]
  cases hview with
  | unended | semicolon => exact .of_closed (by simp [Flaw.isUnclosed, hstart])
  | @closing prelude rest stop hprelude hstop =>
      have hfound (flaw : Flaw) : FoundIn start lexemes (stop, flaw) :=
        ⟨_, _, takePrelude_eq_some hprelude, by rw [hstop, Lexeme.sizeOf_eq_byteLength]⟩
      exact .of_closed (by simp [Flaw.isUnclosed, hstart, hfound])
  | block _ _ hflaws => exact .of_closed (by simp [hflaws, Flaw.isUnclosed, hstart])
  | unclosed hprelude hblock hflaws =>
      refine ⟨fun found hfound => ?_, fun _ _ _ => ⟨fun _ => rfl, fun _ _ _ => Item.noConfusion,
        fun henclosed => henclosed.takeBlock?_ne_none hprelude hblock⟩⟩
      rw [hflaws, List.mem_append, List.mem_ite_nil_right, List.mem_singleton,
        List.mem_singleton] at hfound
      obtain ⟨-, rfl⟩ | rfl := hfound
      · exact hstart _
      · exact hstart _

theorem Step.reports_ofAtRule (start : Nat) (lexemes : List Lexeme) :
    (ofAtRule start lexemes).Reports start (.plain '@' :: lexemes) := by
  obtain ⟨name, tail, step, hname, hstep, hview⟩ := exists_atRuleView start lexemes
  have hlexemes := eq_of_takeName hname
  have hstart (flaw : Flaw) := @FoundIn.at_start start (.plain '@' :: lexemes) flaw
  have hnameless : ∀ found ∈ (if name = [] then [(start, Flaw.namelessAtRule)] else []),
      FoundIn start (.plain '@' :: lexemes) found ∧ found.2.isUnclosed = false := by
    split <;> simp [Flaw.isUnclosed, hstart]
  rw [hstep]
  cases hview with
  | unended | semicolon | media | block => exact .of_closed hnameless
  | @closing prelude rest text hprelude htext =>
      refine .of_closed (List.forall_mem_append.mpr ⟨hnameless, ?_⟩)
      refine List.forall_mem_singleton.mpr
        ⟨⟨.plain '@' :: (name.map .plain ++ prelude), .plain '\x7d' :: rest, ?_, ?_⟩, rfl⟩
      · rw [← hlexemes, takePrelude_eq_some hprelude, List.cons_append, List.append_assoc]
        rfl
      · rw [textOf_atRule, htext]
  | unclosed hprelude hblock htext =>
      refine ⟨List.forall_mem_append.mpr ⟨fun found hfound => (hnameless found hfound).1, ?_⟩,
        fun _ _ _ => ⟨fun _ => rfl, fun _ _ _ => Item.noConfusion, ?_⟩⟩
      · exact List.forall_mem_singleton.mpr (hstart _)
      · intro henclosed
        rw [← hlexemes] at henclosed
        exact henclosed.tail.right.takeBlock?_ne_none hprelude hblock

theorem Step.reports_ofLexeme (start : Nat) (lexeme : Lexeme) (rest : List Lexeme) :
    (ofLexeme start lexeme rest).Reports start (lexeme :: rest) := by
  obtain ⟨step, hstep, hview⟩ := exists_view start lexeme rest
  have hstart (flaw : Flaw) := @FoundIn.at_start start (lexeme :: rest) flaw
  rw [hstep]
  cases hview with
  | comment | blank => exact .of_closed (List.forall_mem_nil _)
  | brace => exact .of_closed (List.forall_mem_singleton.mpr ⟨hstart _, rfl⟩)
  | @openComment body =>
      refine ⟨List.forall_mem_singleton.mpr (hstart _), fun _ _ _ => ⟨fun hlexed => ?_, ?_, ?_⟩⟩
      · exact textOf_eq_nil hlexed.1.1
      · exact fun _ _ _ => Item.noConfusion
      · exact fun henclosed => henclosed.ended body List.mem_cons_self
  | atRule => exact reports_ofAtRule start rest
  | style => exact reports_ofStyle start _

end Reports

section Within

variable {start : Nat} {lexeme : Lexeme} {lexemes : List Lexeme} {rule : Rule}

theorem Step.ne_media_of_within
    (hmedia : ∀ bodyStart body span,
      (ofLexeme start lexeme lexemes).item ≠ .media bodyStart body span)
    (h : Rule.Within (ofLexeme start lexeme lexemes).item.reading.rules rule)
    (children : List Rule) (span : Span) : rule ≠ .media children span := by
  cases hitem : (ofLexeme start lexeme lexemes).item with
  | nothing =>
      rw [hitem] at h
      exact absurd h Rule.not_within_nil
  | media bodyStart body span => exact absurd hitem (hmedia bodyStart body span)
  | rule found =>
      have hfound := ne_media_of_rule hitem
      rw [hitem] at h
      suffices hrule : rule = found from hrule ▸ hfound children span
      induction h with
      | top hmem => exact List.mem_singleton.mp hmem
      | @child parent rule _ hmem ih =>
          rw [ih] at hmem
          cases found with
          | media children span => exact absurd rfl (hfound children span)
          | style => cases hmem
          | atRule => cases hmem
          | comment => cases hmem

theorem Step.stop_le_next
    (h : Rule.Within (ofLexeme start lexeme lexemes).item.reading.rules rule) :
    rule.span.stop ≤ (ofLexeme start lexeme lexemes).next := by
  obtain ⟨text, hreads⟩ := reads_ofLexeme start lexeme lexemes
  have hlayout : Layout (fun _ => True) start (text ++ [])
      ((ofLexeme start lexeme lexemes).item.reading.rules ++ []) := by
    refine hreads.item.layout (fun _ _ => trivial) ?_ (.nil (List.forall_mem_nil _))
    intro bodyStart body span _
    exact (Reading.layout_ofLexemes bodyStart body).mono fun _ _ => trivial
  rw [List.append_nil, List.append_nil] at hlayout
  obtain ⟨before, within, after, rfl, hcovers⟩ := hlayout.exists_covers_of_within h
  rw [hcovers.span_eq, hreads.next_eq]
  simp only [Text.byteLength_append]
  omega

end Within

namespace Reading

variable {start : Nat} {lexemes : List Lexeme} {found : Nat × Flaw}

theorem mem_flaws_cons {lexeme : Lexeme} {step : Step}
    (hstep : Step.ofLexeme start lexeme lexemes = step)
    (h : found ∈ (ofLexemes start (lexeme :: lexemes)).flaws) :
    found ∈ step.flaws ∨
      (∃ bodyStart body span, step.item = .media bodyStart body span ∧
        found ∈ (ofLexemes bodyStart body).flaws) ∨
      found ∈ (ofLexemes step.next step.rest).flaws := by
  rw [ofLexemes_cons start lexeme lexemes hstep] at h
  dsimp only at h
  rw [List.mem_append, List.mem_append] at h
  rcases h with (hstep | hitem) | hrest
  · exact .inl hstep
  · refine .inr (.inl ?_)
    cases hmedia : step.item with
    | nothing => simp [hmedia, Item.reading] at hitem
    | rule => simp [hmedia, Item.reading] at hitem
    | media bodyStart body span =>
        rw [hmedia] at hitem
        exact ⟨bodyStart, body, span, rfl, hitem⟩
  · exact .inr (.inr hrest)

theorem foundIn_of_mem_flaws (h : found ∈ (ofLexemes start lexemes).flaws) :
    FoundIn start lexemes found := by
  induction start, lexemes using Reading.induction with
  | nil start => simp [ofLexemes] at h
  | cons start lexeme lexemes hbody hrest =>
      obtain ⟨taken, htaken, -, hreads⟩ := Step.exists_taken start lexeme lexemes
      rcases mem_flaws_cons rfl h with hstep | ⟨bodyStart, body, span, hitem, hblock⟩ | hfollowing
      · exact (Step.reports_ofLexeme start lexeme lexemes).foundIn found hstep
      · obtain ⟨opening, following, hlexemes, -, -, hstart, -⟩ := Step.exists_opening_of_media hitem
        obtain ⟨before, after, rfl, hfound⟩ := hbody bodyStart body span hitem hblock
        refine ⟨opening ++ .plain '\x7b' :: before, after ++ .plain '\x7d' :: following, ?_, ?_⟩
        · rw [hlexemes]
          simp
        · rw [hfound, hstart, textOf_append, textOf_cons]
          simp [Lexeme.text, Text.utf8Size_leftBrace, Nat.add_assoc]
      · obtain ⟨before, after, hrest, hfound⟩ := hrest hfollowing
        refine ⟨taken ++ before, after, ?_, ?_⟩
        · rw [htaken, hrest, List.append_assoc]
        · rw [hfound, hreads.next_eq, textOf_append, Text.byteLength_append, Nat.add_assoc]

theorem start_le_of_mem_flaws (h : found ∈ (ofLexemes start lexemes).flaws) :
    start ≤ found.1 := by
  obtain ⟨before, after, -, hfound⟩ := foundIn_of_mem_flaws h
  rw [hfound]
  exact Nat.le_add_right ..

theorem isUnclosed_of_enclosed (h : Enclosed lexemes)
    (hfound : found ∈ (ofLexemes start lexemes).flaws) : found.2.isUnclosed = false := by
  induction start, lexemes using Reading.induction with
  | nil start => simp [ofLexemes] at hfound
  | cons start lexeme lexemes hbody hrest =>
      rcases mem_flaws_cons rfl hfound with
        hstep | ⟨bodyStart, body, span, hitem, hblock⟩ | hfollowing
      · rw [← Bool.not_eq_true]
        intro hunclosed
        have hreports := Step.reports_ofLexeme start lexeme lexemes
        exact (hreports.unclosed found hstep hunclosed).2.2 h
      · refine hbody bodyStart body span hitem ?_ hblock
        obtain ⟨opening, after, hlexemes, -, htake, -⟩ := Step.exists_opening_of_media hitem
        refine .of_takeBlock? (htake []) fun comment hcomment => h.ended comment ?_
        rw [hlexemes]
        simp [hcomment]
      · refine hrest ?_ hfollowing
        obtain ⟨taken, htaken, -⟩ := Step.exists_taken start lexeme lexemes
        rw [htaken] at h
        exact h.right

/-- What has no end comes after all media rules. -/
theorem stop_le_of_isUnclosed (hlexed : Lexed lexemes)
    (hfound : found ∈ (ofLexemes start lexemes).flaws) (hunclosed : found.2.isUnclosed = true)
    {children : List Rule} {span : Span}
    (hmedia : Rule.Within (ofLexemes start lexemes).rules (.media children span)) :
    span.stop ≤ found.1 := by
  induction start, lexemes using Reading.induction with
  | nil start => simp [ofLexemes] at hfound
  | cons start lexeme lexemes _ hrest =>
      obtain ⟨taken, htaken, -⟩ := Step.exists_taken start lexeme lexemes
      rw [ofLexemes_cons start lexeme lexemes rfl] at hmedia
      rcases mem_flaws_cons rfl hfound with hstep | ⟨bodyStart, body, _, hitem, hblock⟩ | hfollowing
      · obtain ⟨hnil, hnot, -⟩ :=
          (Step.reports_ofLexeme start lexeme lexemes).unclosed found hstep hunclosed
        rw [hnil hlexed, ofLexemes] at hmedia
        rcases hmedia.of_append with hrule | hnone
        · exact absurd rfl (Step.ne_media_of_within hnot hrule children span)
        · exact absurd hnone Rule.not_within_nil
      · obtain ⟨opening, after, hlexemes, -, htake, -⟩ := Step.exists_opening_of_media hitem
        rw [hlexemes] at hlexed
        have hended := openComment_not_mem hlexed.right.2
        rw [isUnclosed_of_enclosed (.of_takeBlock? (htake []) hended) hblock] at hunclosed
        cases hunclosed
      · rcases hmedia.of_append with hrule | hafter
        · exact Nat.le_trans (Step.stop_le_next hrule) (start_le_of_mem_flaws hfollowing)
        · rw [htaken] at hlexed
          exact hrest hlexed.right hfollowing hafter

end Reading

end Stylesheet

end StyleSplit
