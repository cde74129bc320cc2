import StyleSplit.Proofs.Stylesheet.Depth
import StyleSplit.Proofs.Stylesheet.Scanning

/-! Reading in place meets no fault, moves on at every turn, and gives what reading the
lexemes gives. -/

namespace StyleSplit.Stylesheet.InPlace

open Lexeme (textOf textOf_append textOf_cons sizeOf_eq_byteLength Lexed takeComment?)
open Text (byteLength codes IsHigh isBlank isNameChar isWhite)

variable {text before : List Char} {limit : Nat} {c : Char} {name : List Char}
  {lexemes tail : List Lexeme}

theorem bytes_eq {within after : List Char} (htext : text = before ++ (within ++ after))
    (hlimit : limit = byteLength before + byteLength within) :
    bytes text (byteLength before) limit = .ok (codes within) := by
  have hsize : limit ≤ (codes text).length := by
    rw [Text.length_codes, htext]
    simp only [Text.byteLength_append]
    omega
  rw [bytes, if_pos ⟨by omega, hsize⟩, htext, Text.codes_append, Text.codes_append,
    ← Text.length_codes before, List.drop_left, hlimit, ← Text.length_codes before,
    Nat.add_sub_cancel_left, ← Text.length_codes within, List.take_left]

theorem not_isHigh_of_isNameChar (hc : isNameChar c = true) : ¬ IsHigh c := by
  intro hhigh
  have hcode := toNat_of_isNameChar hc
  have hlarge : 0x80 ≤ c.toNat := hhigh
  omega

theorem codes_of_isNameChar (h : ∀ c ∈ name, isNameChar c = true) : codes name = name := by
  induction name with
  | nil => rfl
  | cons c name ih =>
      obtain ⟨hc, hname⟩ := List.forall_mem_cons.mp h
      rw [Text.codes_cons, Text.codes_singleton (not_isHigh_of_isNameChar hc), ih hname]
      rfl

theorem head?_takeName (hlexed : Lexed lexemes) (h : takeName lexemes = (name, tail))
    (hc : (textOf tail).head? = some c) : isNameChar c = false := by
  fun_induction takeName lexemes generalizing name with
  | case1 d lexemes hd first second htake ih =>
      cases h
      exact ih hlexed.2 htake
  | case2 d lexemes hd =>
      cases h
      obtain rfl : d = c := by simpa [textOf_cons, Lexeme.text] using hc
      simpa using hd
  | case3 _ hplain =>
      cases h
      cases tail with
      | nil => simp [textOf] at hc
      | cons lexeme lexemes =>
          have hfits := hlexed.1
          rw [textOf_cons] at hc
          cases lexeme with
          | plain d => exact absurd rfl (hplain d lexemes)
          | escape d =>
              obtain rfl : '\\' = c := by cases d <;> simpa [Lexeme.text] using hc
              decide
          | quoted mark within =>
              obtain rfl : mark = c := by simpa [Lexeme.text] using hc
              rcases hfits.1 with rfl | rfl <;> decide
          | comment body =>
              obtain rfl : '/' = c := by simpa [Lexeme.text] using hc
              decide
          | openComment body =>
              obtain rfl : '/' = c := by simpa [Lexeme.text] using hc
              decide

theorem takeWhile_codes (hlexed : Lexed lexemes) (h : takeName lexemes = (name, tail)) :
    (codes (textOf lexemes)).takeWhile isNameChar = name := by
  have hname := isNameChar_of_takeName h
  have htext := textOf_takeName lexemes
  rw [h] at htext
  rw [htext, Text.codes_append, codes_of_isNameChar hname, List.takeWhile_append_of_pos hname]
  cases hrest : textOf tail with
  | nil => exact List.append_nil name
  | cons c rest =>
      have hc := head?_takeName hlexed h (by rw [hrest]; rfl)
      rw [Text.codes_cons]
      by_cases hhigh : IsHigh c
      · cases hcodes : codes [c] with
        | nil =>
            have hpos := c.utf8Size_pos
            have hlength := Text.length_codes [c]
            rw [hcodes] at hlength
            simp at hlength
            omega
        | cons d more =>
            have hd := Text.isHigh_of_mem_codes hhigh (by rw [hcodes]; exact List.mem_cons_self)
            rw [List.cons_append, List.takeWhile_cons_of_neg
              (fun hname => not_isHigh_of_isNameChar hname hd), List.append_nil]
      · rw [Text.codes_singleton hhigh, List.singleton_append,
          List.takeWhile_cons_of_neg (by simp [hc]), List.append_nil]

/-- A turn finds what a step of the reading finds. The block of a media rule is a region
of its own, inside the region of the turn. -/
inductive Found.Gives (text : List Char) (limit : Nat) (before : List Char)
    (lexemes : List Lexeme) : Found → Item → Prop
  | nothing : Gives text limit before lexemes .nothing .nothing
  | rule {rule} : Gives text limit before lexemes (.rule rule) (.rule rule)
  | media {first body bodyStop span} (region : Region text bodyStop first body)
      (lt_start : byteLength before < byteLength first) (stop_le : bodyStop ≤ limit)
      (shorter : body.length < lexemes.length) :
      Gives text limit before lexemes (.media (byteLength first) bodyStop span)
        (.media (byteLength first) body span)

/-- What a turn finds and what the lexemes after it give make up the reading. -/
structure Turn.Reads (turn : Turn) (text : List Char) (limit : Nat) (before : List Char)
    (lexemes : List Lexeme) : Prop where
  exists_item : ∃ taken rest item, lexemes = taken ++ rest ∧ taken ≠ [] ∧
    turn.next = byteLength before + byteLength (textOf taken) ∧
    turn.found.Gives text limit before lexemes item ∧
    Reading.ofLexemes (byteLength before) lexemes =
      ⟨item.reading.rules ++ (Reading.ofLexemes turn.next rest).rules,
        turn.flaws ++ item.reading.flaws ++ (Reading.ofLexemes turn.next rest).flaws⟩

theorem Turn.Reads.of_step {turn : Turn} {step : Step} {lexeme : Lexeme}
    (hstep : Step.ofLexeme (byteLength before) lexeme lexemes = step)
    (hfound : turn.found.Gives text limit before (lexeme :: lexemes) step.item)
    (hflaws : turn.flaws = step.flaws) (hnext : turn.next = step.next) :
    turn.Reads text limit before (lexeme :: lexemes) := by
  obtain ⟨taken, htaken, hne, hreads⟩ := Step.exists_taken (byteLength before) lexeme lexemes
  rw [hstep] at htaken hreads
  refine ⟨taken, step.rest, step.item, htaken, hne, hnext.trans hreads.next_eq, hfound, ?_⟩
  rw [Reading.ofLexemes_cons _ _ _ hstep, hflaws, hnext]

theorem ofLexemes_brace (start : Nat) (lexemes : List Lexeme) :
    Reading.ofLexemes start (.plain '\x7d' :: lexemes) =
      ⟨(Reading.ofLexemes (start + 1) lexemes).rules,
        (start, .strayBrace) :: (Reading.ofLexemes (start + 1) lexemes).flaws⟩ := by
  have hstep : Step.ofLexeme start (.plain '\x7d') lexemes =
      ⟨.nothing, [(start, .strayBrace)], start + 1, lexemes⟩ := rfl
  rw [Reading.ofLexemes_cons _ _ _ hstep]
  rfl

/-- A step may take a brace that the turn leaves to the next one. -/
theorem Turn.Reads.of_step_brace {turn : Turn} {step : Step} {lexeme : Lexeme}
    (hstep : Step.ofLexeme (byteLength before) lexeme lexemes = step)
    (hfound : turn.found.Gives text limit before (lexeme :: lexemes) step.item)
    (hflaws : turn.flaws ++ [(turn.next, .strayBrace)] = step.flaws)
    (hmedia : step.item.reading.flaws = [])
    {taken : List Lexeme} (htaken : lexeme :: lexemes = taken ++ .plain '\x7d' :: step.rest)
    (hne : taken ≠ []) (hnext : turn.next = byteLength before + byteLength (textOf taken))
    (hstop : step.next = turn.next + 1) :
    turn.Reads text limit before (lexeme :: lexemes) := by
  refine ⟨taken, .plain '\x7d' :: step.rest, step.item, htaken, hne, hnext, hfound, ?_⟩
  rw [Reading.ofLexemes_cons _ _ _ hstep, ofLexemes_brace, hstop, ← hflaws, hmedia]
  simp

theorem trimmedStop_eq {within after : List Char} {stop : Nat}
    (htext : text = before ++ (within ++ after))
    (hstop : stop = byteLength before + byteLength within) :
    InPlace.trimmedStop text (byteLength before) stop =
      .ok (Stylesheet.trimmedStop (byteLength before) within) := by
  rw [InPlace.trimmedStop, slice_eq htext hstop]
  rfl

theorem reads_comment {body : List Char}
    (h : Region text limit before (.comment body :: lexemes)) :
    ∃ turn, comment text limit (byteLength before) = .ok turn ∧
      turn.Reads text limit before (.comment body :: lexemes) := by
  obtain ⟨after, htext, hlimit⟩ := h.exists_comment
  have htake : takeComment? (body ++ '*' :: '/' :: textOf lexemes) = some (body, textOf lexemes) :=
    h.lexed.1
  have hbody : text =
      before ++ '/' :: '*' :: (body ++ ('*' :: '/' :: (textOf lexemes ++ after))) := by
    rw [htext]
    simp
  have hturn : comment text limit (byteLength before) =
      .ok ⟨.rule (.comment (.ofList body)
          ⟨byteLength before, byteLength before + 2 + byteLength body + 2⟩), [],
        byteLength before + 2 + byteLength body + 2⟩ := by
    rw [comment, slice_comment htext hlimit, ok_bind, htake]
    dsimp only
    rw [slice_comment hbody rfl]
    rfl
  have hsize : byteLength before + 2 + byteLength body + 2 =
      byteLength before + (Lexeme.comment body).size := by
    rw [size_comment]
    omega
  rw [hsize] at hturn
  exact ⟨_, hturn, .of_step rfl .rule rfl rfl⟩

theorem reads_openComment {body : List Char}
    (h : Region text limit before (.openComment body :: lexemes)) :
    ∃ turn, comment text limit (byteLength before) = .ok turn ∧
      turn.Reads text limit before (.openComment body :: lexemes) := by
  obtain ⟨rfl, after, htext, hlimit⟩ := h.exists_openComment
  have htake : takeComment? body = none := h.lexed.1.2
  have hturn : comment text limit (byteLength before) =
      .ok ⟨.rule (.comment (.ofList body) ⟨byteLength before, limit⟩),
        [(byteLength before, .unclosedComment)], limit⟩ := by
    rw [comment, slice_comment htext hlimit, ok_bind, htake]
    rfl
  have hsize : limit = byteLength before + (Lexeme.openComment body).size := by
    rw [hlimit, Lexeme.size, Lexeme.text, byteLength_opening, Nat.add_assoc]
  subst hsize
  exact ⟨_, hturn, .of_step rfl .rule rfl rfl⟩

theorem scan_block (h : Region text limit before (.plain '\x7b' :: lexemes)) :
    scan text limit untilClosed 0 (byteLength before) =
      .ok ((takeBlock? 0 lexemes).map fun block =>
        (byteLength before + 1 + byteLength (textOf block.1), '\x7d')) := by
  have hblock := @scan_untilClosed text _ limit 0 lexemes h.tail
  have hsize : byteLength (before ++ (Lexeme.plain '\x7b').text) = byteLength before + 1 := by
    rw [Text.byteLength_append]
    rfl
  rw [hsize] at hblock
  rw [scan_plain untilClosed_of_isHigh h]
  exact hblock

section StyleRule

variable {lexeme : Lexeme} {prelude rest : List Lexeme}

theorem styleRule_opening (h : Region text limit before lexemes)
    (hprelude : takePrelude 0 lexemes = (prelude, some (.opening, rest)))
    {flaws : List (Nat × Flaw)} (hflaws : flaws = if (textOf prelude).all isWhite then
      [(byteLength before, .selectorMissing)] else []) :
    styleRule text limit (byteLength before) = .ok
      (match takeBlock? 0 rest with
      | none => ⟨.rule (.style ⟨byteLength before, limit⟩),
          flaws ++ [(byteLength before, .unclosedRule)], limit⟩
      | some (body, _) =>
          let close := byteLength before + byteLength (textOf prelude) + 1 +
            byteLength (textOf body)
          ⟨.rule (.style ⟨byteLength before, close + 1⟩), flaws, close + 1⟩) := by
  have hscan := @scan_untilStop _ _ _ 0 _ h
  have hregion : Region text limit (before ++ textOf prelude) (.plain '\x7b' :: rest) :=
    (takePrelude_eq_some hprelude ▸ h : Region text limit before _).right
  obtain ⟨after, htext, -⟩ := hregion.exists_after
  have hblock := scan_block hregion
  rw [List.append_assoc] at htext
  rw [Text.byteLength_append] at hblock
  rw [styleRule, hscan, ok_bind, hprelude]
  dsimp only [Option.map_some, Stop.mark]
  rw [if_pos rfl, slice_eq htext rfl, ok_bind, hblock, ok_bind, ← hflaws]
  cases takeBlock? 0 rest <;> rfl

theorem reads_styleRule (h : Region text limit before (lexeme :: lexemes))
    (hbrace : lexeme ≠ .plain '\x7d')
    (hstep : Step.ofLexeme (byteLength before) lexeme lexemes =
      .ofStyle (byteLength before) (lexeme :: lexemes)) :
    ∃ turn, styleRule text limit (byteLength before) = .ok turn ∧
      turn.Reads text limit before (lexeme :: lexemes) := by
  have hscan := @scan_untilStop _ _ _ 0 _ h
  obtain ⟨step, hstyle, hview⟩ := Step.exists_styleView (byteLength before) (lexeme :: lexemes)
  rw [hstyle] at hstep
  cases hview with
  | unended hprelude hstop =>
      have hturn : styleRule text limit (byteLength before) =
          .ok ⟨.nothing, [(byteLength before, .blockMissing)], limit⟩ := by
        rw [styleRule, hscan, hprelude]
        rfl
      refine ⟨_, hturn, .of_step hstep .nothing rfl ?_⟩
      rw [hstop, h.limit_eq, takePrelude_eq_none hprelude, sizeOf_eq_byteLength]
  | @semicolon prelude rest stop hprelude hstop =>
      have hturn : styleRule text limit (byteLength before) =
          .ok ⟨.nothing, [(byteLength before, .blockMissing)], stop + 1⟩ := by
        rw [styleRule, hscan, hprelude, hstop, sizeOf_eq_byteLength]
        rfl
      exact ⟨_, hturn, .of_step hstep .nothing rfl rfl⟩
  | @closing prelude rest stop hprelude hstop =>
      rw [sizeOf_eq_byteLength] at hstop
      have hall := takePrelude_eq_some hprelude
      have hturn : styleRule text limit (byteLength before) =
          .ok ⟨.nothing, [(byteLength before, .blockMissing)], stop⟩ := by
        rw [styleRule, hscan, hprelude, hstop]
        rfl
      have hne : prelude ≠ [] := by
        rintro rfl
        exact hbrace (List.cons.inj hall).1
      exact ⟨_, hturn, .of_step_brace hstep .nothing rfl rfl hall hne hstop rfl⟩
  | @unclosed prelude rest stop flaws hprelude hblock hflaws hstop =>
      obtain rfl : stop = limit := by
        rw [hstop, h.limit_eq, textOf_takePrelude hprelude, Stop.mark, byteLength_unclosed,
          sizeOf_eq_byteLength prelude]
        omega
      rw [styleRule_opening h hprelude hflaws, hblock]
      exact ⟨_, rfl, .of_step hstep .rule rfl rfl⟩
  | block hprelude hblock hflaws hstop =>
      rw [sizeOf_eq_byteLength, sizeOf_eq_byteLength] at hstop
      subst hstop
      rw [styleRule_opening h hprelude hflaws, hblock]
      exact ⟨_, rfl, .of_step hstep .rule rfl rfl⟩

end StyleRule

theorem name_eq (h : Region text limit before (.plain '@' :: lexemes))
    (hname : takeName lexemes = (name, tail)) :
    bytes text (byteLength before + 1) limit = .ok (codes (textOf lexemes)) ∧
      slice text (byteLength before + 1) (byteLength before + 1 + name.length) = .ok name ∧
      byteLength before + 1 + name.length = byteLength (before ++ '@' :: name) ∧
      Region text limit (before ++ '@' :: name) tail := by
  obtain ⟨after, htext, -⟩ := h.tail.exists_after
  have hstart : byteLength (before ++ (Lexeme.plain '@').text) = byteLength before + 1 := by
    rw [Text.byteLength_append]
    rfl
  have hlength : byteLength name = name.length := by
    rw [← Text.length_codes, codes_of_isNameChar (isNameChar_of_takeName hname)]
  have hnames := textOf_takeName lexemes
  rw [hname] at hnames
  have hlexemes : .plain '@' :: lexemes = (.plain '@' :: name.map .plain) ++ tail := by
    rw [List.cons_append, eq_of_takeName hname]
  refine ⟨?_, ?_, ?_, ?_⟩
  · rw [← hstart]
    exact bytes_eq htext h.tail.limit_eq
  · have hsplit : text = (before ++ ['@']) ++ (name ++ (textOf tail ++ after)) := by
      rw [htext, hnames]
      simp [Lexeme.text]
    rw [← hstart, ← hlength]
    exact slice_eq hsplit rfl
  · rw [Text.byteLength_append, Text.byteLength_cons, hlength, Nat.add_assoc]
    rfl
  · have hregion := (hlexemes ▸ h : Region text limit before _).right
    rw [textOf_cons, Lexeme.textOf_map_plain] at hregion
    exact hregion

theorem Found.Gives.of_block {first : List Char} {rest body more : List Lexeme}
    (h : Region text limit first (.plain '\x7b' :: rest))
    (hle : byteLength before ≤ byteLength first) (htake : takeBlock? 0 rest = some (body, more))
    (hshorter : body.length < lexemes.length) (span : Span) :
    Found.Gives text limit before lexemes
      (.media (byteLength first + 1) (byteLength first + 1 + byteLength (textOf body)) span)
      (.media (byteLength first + 1) body span) := by
  have hinside : Region text limit _ (body ++ .plain '\x7d' :: more) :=
    takeBlock?_append htake ▸ h.tail
  have hlimit := hinside.limit_eq
  have hsize : byteLength (first ++ (Lexeme.plain '\x7b').text) = byteLength first + 1 := by
    rw [Text.byteLength_append]
    rfl
  rw [hsize, textOf_append, Text.byteLength_append] at hlimit
  rw [← hsize]
  exact .media (hinside.left (by decide)) (by omega) (by omega) hshorter

section AtRule

variable {prelude rest : List Lexeme}

theorem region_prelude (h : Region text limit before (.plain '@' :: lexemes))
    (hname : takeName lexemes = (name, tail)) {following : List Lexeme}
    (htail : tail = prelude ++ following) :
    Region text limit (before ++ ('@' :: name ++ textOf prelude)) following := by
  obtain ⟨-, -, -, hregion⟩ := name_eq h hname
  rw [htail] at hregion
  have hright := hregion.right
  rwa [List.append_assoc] at hright

theorem atRule_eq (h : Region text limit before (.plain '@' :: lexemes))
    (hname : takeName lexemes = (name, tail)) {ending : Option (Stop × List Lexeme)}
    (hprelude : takePrelude 0 tail = (prelude, ending)) :
    atRule text limit (byteLength before) =
      atRuleEnding text limit (byteLength before) name (ending.map fun ending =>
        (byteLength before + byteLength ('@' :: name ++ textOf prelude), ending.1.mark)) := by
  obtain ⟨hbytes, hslice, hstart, hregion⟩ := name_eq h hname
  have hscan := @scan_untilStop _ _ _ 0 _ hregion
  rw [hprelude] at hscan
  rw [atRule, hbytes, ok_bind]
  dsimp only
  rw [takeWhile_codes h.lexed.2 hname, hslice, ok_bind, hstart, hscan, ok_bind,
    Text.byteLength_append before, Nat.add_assoc, ← Text.byteLength_append]

theorem reads_atRule_unended (h : Region text limit before (.plain '@' :: lexemes))
    (hname : takeName lexemes = (name, tail)) (hprelude : takePrelude 0 tail = (prelude, none)) :
    ∃ turn, atRule text limit (byteLength before) = .ok turn ∧
      turn.Reads text limit before (.plain '@' :: lexemes) := by
  have hregion : Region text limit (before ++ ('@' :: name ++ textOf prelude)) [] :=
    region_prelude h hname ((takePrelude_eq_none hprelude).trans (List.append_nil _).symm)
  obtain ⟨after, htext, -⟩ := hregion.exists_after
  have hlimit := hregion.limit_of_nil
  rw [List.append_assoc] at htext
  rw [Text.byteLength_append] at hlimit
  have hstep : Step.ofLexeme (byteLength before) (.plain '@') lexemes = _ :=
    Step.ofAtRule_eq hname (.unended hprelude rfl)
  rw [atRule_eq h hname hprelude, Option.map_none, atRuleEnding, trimmedStop_eq htext hlimit]
  exact ⟨_, rfl, .of_step hstep .rule rfl hlimit⟩

theorem reads_atRule_closing (h : Region text limit before (.plain '@' :: lexemes))
    (hname : takeName lexemes = (name, tail))
    (hprelude : takePrelude 0 tail = (prelude, some (.closing, rest))) :
    ∃ turn, atRule text limit (byteLength before) = .ok turn ∧
      turn.Reads text limit before (.plain '@' :: lexemes) := by
  have hall := takePrelude_eq_some hprelude
  obtain ⟨after, htext, -⟩ := (region_prelude h hname hall).exists_after
  rw [List.append_assoc] at htext
  have hstep : Step.ofLexeme (byteLength before) (.plain '@') lexemes = _ :=
    Step.ofAtRule_eq hname (.closing hprelude rfl)
  have htaken : .plain '@' :: lexemes =
      (.plain '@' :: (name.map .plain ++ prelude)) ++ .plain '\x7d' :: rest := by
    rw [← eq_of_takeName hname, hall]
    simp [Stop.mark]
  rw [atRule_eq h hname hprelude, Option.map_some, Stop.mark, atRuleEnding, if_neg (by decide),
    if_neg (by decide), trimmedStop_eq htext rfl]
  refine ⟨_, rfl, .of_step_brace hstep .rule rfl rfl htaken (List.cons_ne_nil _ _) ?_ rfl⟩
  rw [textOf_atRule]

theorem atRule_opening (h : Region text limit before (.plain '@' :: lexemes))
    (hname : takeName lexemes = (name, tail))
    (hprelude : takePrelude 0 tail = (prelude, some (.opening, rest)))
    {taken : List Char} (htaken : taken = '@' :: name ++ textOf prelude) :
    atRule text limit (byteLength before) = .ok
      (match takeBlock? 0 rest with
      | none => ⟨.rule (.atRule (.ofList name) ⟨byteLength before, limit⟩),
          nameFlaws (byteLength before) name ++
            [(byteLength before, .unclosedAtRule (.ofList name))], limit⟩
      | some (body, _) =>
          let bodyStart := byteLength before + byteLength taken + 1
          let close := bodyStart + byteLength (textOf body)
          ⟨if name.map Char.toLower = "media".toList then
              .media bodyStart close ⟨byteLength before, close + 1⟩
            else .rule (.atRule (.ofList name) ⟨byteLength before, close + 1⟩),
            nameFlaws (byteLength before) name, close + 1⟩) := by
  have hregion : Region text limit (before ++ taken) (.plain '\x7b' :: rest) :=
    htaken ▸ region_prelude h hname (takePrelude_eq_some hprelude)
  have hblock := scan_block hregion
  rw [Text.byteLength_append] at hblock
  rw [atRule_eq h hname hprelude, ← htaken, Option.map_some, Stop.mark, atRuleEnding,
    if_neg (by decide), if_pos rfl, hblock]
  cases takeBlock? 0 rest with
  | none => rfl
  | some block =>
      rw [Option.map_some, ok_bind]
      dsimp only
      split <;> rfl

theorem reads_atRule (h : Region text limit before (.plain '@' :: lexemes)) :
    ∃ turn, atRule text limit (byteLength before) = .ok turn ∧
      turn.Reads text limit before (.plain '@' :: lexemes) := by
  obtain ⟨name, tail, step, hname, hstep, hview⟩ :=
    Step.exists_atRuleView (byteLength before) lexemes
  rw [← Step.ofLexeme_at] at hstep
  cases hview with
  | unended hprelude => exact reads_atRule_unended h hname hprelude
  | closing hprelude => exact reads_atRule_closing h hname hprelude
  | semicolon hprelude htaken =>
      rw [atRule_eq h hname hprelude, ← htaken]
      exact ⟨_, rfl, .of_step hstep .rule rfl rfl⟩
  | @unclosed prelude rest taken stop hprelude hblock htaken hstop =>
      have hlimit := (region_prelude h hname (takePrelude_eq_some hprelude)).limit_eq
      rw [← htaken, byteLength_textOf_cons, ← Nat.add_assoc, Text.byteLength_append, Stop.mark,
        size_plain, Text.utf8Size_leftBrace, ← sizeOf_eq_byteLength, ← hstop] at hlimit
      subst hlimit
      rw [atRule_opening h hname hprelude htaken, hblock]
      exact ⟨_, rfl, .of_step hstep .rule rfl rfl⟩
  | @media prelude rest body after taken stop hprelude hblock htaken hstop hmedia =>
      have hregion := region_prelude h hname (takePrelude_eq_some hprelude)
      rw [← htaken] at hregion
      have hle : byteLength before ≤ byteLength (before ++ taken) := by
        rw [Text.byteLength_append]
        exact Nat.le_add_right ..
      have hgives := Found.Gives.of_block hregion hle hblock
        (Step.length_body_lt (congrArg Step.item hstep)) ⟨byteLength before, stop⟩
      rw [Text.byteLength_append] at hgives
      rw [sizeOf_eq_byteLength] at hstop
      subst hstop
      rw [atRule_opening h hname hprelude htaken, hblock]
      dsimp only
      rw [if_pos hmedia]
      exact ⟨_, rfl, .of_step hstep hgives rfl rfl⟩
  | block hprelude hblock htaken hstop hmedia =>
      rw [sizeOf_eq_byteLength] at hstop
      subst hstop
      rw [atRule_opening h hname hprelude htaken, hblock]
      dsimp only
      rw [if_neg hmedia]
      exact ⟨_, rfl, .of_step hstep .rule rfl rfl⟩

end AtRule

theorem not_isBlank_of_isHigh (hc : IsHigh c) : isBlank c = false := by
  rw [Bool.eq_false_iff]
  intro hblank
  simp only [isBlank, Bool.or_eq_true, beq_iff_eq] at hblank
  rcases hblank with (((rfl | rfl) | rfl) | rfl) | rfl <;> exact absurd hc (by decide)

theorem reads_turn_of_style {lexeme : Lexeme} (h : Region text limit before (lexeme :: lexemes))
    (hbrace : lexeme ≠ .plain '\x7d')
    (hturn : turn text limit (byteLength before) = styleRule text limit (byteLength before))
    (hstep : Step.ofLexeme (byteLength before) lexeme lexemes =
      .ofStyle (byteLength before) (lexeme :: lexemes)) :
    ∃ found, turn text limit (byteLength before) = .ok found ∧
      found.Reads text limit before (lexeme :: lexemes) := by
  rw [hturn]
  exact reads_styleRule h hbrace hstep

theorem reads_turn_plain (h : Region text limit before (.plain c :: lexemes))
    (hblank : isBlank c = false) :
    ∃ found, turn text limit (byteLength before) = .ok found ∧
      found.Reads text limit before (.plain c :: lexemes) := by
  obtain ⟨after, htext, -⟩ := h.exists_after
  obtain ⟨d, hbyte, hsame, hhigh⟩ := exists_byte htext
  have hstep (hbrace : c ≠ '\x7d') (hat : c ≠ '@') :
      Step.ofLexeme (byteLength before) (.plain c) lexemes =
        .ofStyle (byteLength before) (.plain c :: lexemes) := by
    rw [Step.ofLexeme, if_neg (by simp [hblank]), if_neg hbrace, if_neg hat]
  by_cases hc : IsHigh c
  · have hne {mark : Char} (hmark : ¬ IsHigh mark) : c ≠ mark := ne_of_isHigh hc hmark
    have hfirst {mark : Char} (hmark : ¬ IsHigh mark) : d ≠ mark := ne_of_isHigh (hhigh hc) hmark
    refine reads_turn_of_style h (by simpa using hne (by decide)) ?_
      (hstep (hne (by decide)) (hne (by decide)))
    rw [turn, hbyte, ok_bind, if_neg fun hslash => hfirst (by decide) hslash.1,
      if_neg (hfirst (by decide)), if_neg (hfirst (by decide))]
  · rw [hsame hc] at hbyte
    have hslash : ¬ (c = '/' ∧ (codes text)[byteLength before + 1]? = some '*' ∧
        byteLength before + 1 < limit) := fun hall => h.not_star hc ⟨hall.1, hall.2.1⟩
    by_cases hbrace : c = '\x7d'
    · subst hbrace
      have hturn : turn text limit (byteLength before) =
          .ok ⟨.nothing, [(byteLength before, .strayBrace)], byteLength before + 1⟩ := by
        rw [turn, hbyte]
        rfl
      exact ⟨_, hturn, .of_step rfl .nothing rfl rfl⟩
    · by_cases hat : c = '@'
      · subst hat
        rw [turn, hbyte, ok_bind, if_neg hslash, if_neg hbrace, if_pos rfl]
        exact reads_atRule h
      · refine reads_turn_of_style h (by simpa using hbrace) ?_ (hstep hbrace hat)
        rw [turn, hbyte, ok_bind, if_neg hslash, if_neg hbrace, if_neg hat]

theorem reads_turn {lexeme : Lexeme} (h : Region text limit before (lexeme :: lexemes))
    (hblank : ∀ c, lexeme = .plain c → isBlank c = false) :
    ∃ found, turn text limit (byteLength before) = .ok found ∧
      found.Reads text limit before (lexeme :: lexemes) := by
  obtain ⟨after, htext, -⟩ := h.exists_after
  cases lexeme with
  | comment body =>
      obtain ⟨after, htext, hlimit⟩ := h.exists_comment
      have hstar := (star_iff htext (by decide)).mpr rfl
      rw [turn, byte_eq htext (by decide), ok_bind, if_pos ⟨rfl, hstar, by omega⟩]
      exact reads_comment h
  | openComment body =>
      obtain ⟨-, after, htext, hlimit⟩ := h.exists_openComment
      have hstar := (star_iff htext (by decide)).mpr rfl
      rw [turn, byte_eq htext (by decide), ok_bind, if_pos ⟨rfl, hstar, by omega⟩]
      exact reads_openComment h
  | escape d =>
      refine reads_turn_of_style h (by simp) ?_ rfl
      have hbyte : byte text (byteLength before) = .ok '\\' := by
        cases d with
        | none => exact byte_eq htext (by decide)
        | some d => exact byte_eq htext (by decide)
      rw [turn, hbyte]
      rfl
  | quoted mark within =>
      refine reads_turn_of_style h (by simp) ?_ rfl
      rcases h.lexed.1.1 with rfl | rfl
      · rw [turn, byte_eq htext (by decide)]
        rfl
      · rw [turn, byte_eq htext (by decide)]
        rfl
  | plain c => exact reads_turn_plain h (hblank c rfl)

/-! The blanks before a turn. -/

theorem exists_blanks (lexemes : List Lexeme) :
    ∃ (blanks : List Char) (rest : List Lexeme), lexemes = blanks.map .plain ++ rest ∧
      (∀ c ∈ blanks, isBlank c = true) ∧
      ∀ c more, rest = .plain c :: more → isBlank c = false := by
  induction lexemes with
  | nil => exact ⟨[], [], rfl, by simp, by simp⟩
  | cons lexeme lexemes ih =>
      by_cases hblank : ∃ c, lexeme = .plain c ∧ isBlank c = true
      · obtain ⟨c, rfl, hc⟩ := hblank
        obtain ⟨blanks, rest, rfl, hblanks, hrest⟩ := ih
        exact ⟨c :: blanks, rest, rfl, List.forall_mem_cons.mpr ⟨hc, hblanks⟩, hrest⟩
      · refine ⟨[], lexeme :: lexemes, rfl, by simp, ?_⟩
        intro c more heq
        exact Bool.eq_false_iff.mpr fun hc => hblank ⟨c, (List.cons.inj heq).1, hc⟩

theorem skipBlanks_here {lexeme : Lexeme} (h : Region text limit before (lexeme :: lexemes))
    (hblank : ∀ c, lexeme = .plain c → isBlank c = false) :
    skipBlanks text limit (byteLength before) = .ok (byteLength before) := by
  obtain ⟨after, htext, -⟩ := h.exists_after
  have hstop {d : Char} {rest : List Char} (htext : text = before ++ d :: rest)
      (hd : isBlank d = false) :
      skipBlanks text limit (byteLength before) = .ok (byteLength before) := by
    obtain ⟨e, hbyte, hsame, hhigh⟩ := exists_byte htext
    have he : isBlank e = false := by
      by_cases hc : IsHigh d
      · exact not_isBlank_of_isHigh (hhigh hc)
      · rw [hsame hc, hd]
    rw [skipBlanks, if_pos h.lt_limit, hbyte, ok_bind, if_neg (by simp [he])]
  cases lexeme with
  | plain d => exact hstop htext (hblank d rfl)
  | escape d => cases d <;> exact hstop htext (by decide)
  | quoted mark within => exact hstop htext (by rcases h.lexed.1.1 with rfl | rfl <;> decide)
  | comment body => exact hstop htext (by decide)
  | openComment body => exact hstop htext (by decide)

theorem skipBlanks_eq {blanks : List Char} {rest : List Lexeme}
    (h : Region text limit before (blanks.map .plain ++ rest))
    (hblanks : ∀ c ∈ blanks, isBlank c = true)
    (hrest : ∀ c more, rest = .plain c :: more → isBlank c = false) :
    skipBlanks text limit (byteLength before) = .ok (byteLength (before ++ blanks)) := by
  induction blanks generalizing before with
  | nil =>
      rw [List.append_nil]
      cases rest with
      | nil => rw [skipBlanks, if_neg (by rw [h.limit_eq]; exact Nat.lt_irrefl _)]
      | cons lexeme more => exact skipBlanks_here h fun c hc => hrest c more (by rw [hc])
  | cons c blanks ih =>
      obtain ⟨hc, hblanks⟩ := List.forall_mem_cons.mp hblanks
      have hlow : ¬ IsHigh c := fun hhigh => by
        rw [not_isBlank_of_isHigh hhigh] at hc
        cases hc
      obtain ⟨after, htext, -⟩ := h.exists_after
      have htail := ih h.tail hblanks
      have hsize : byteLength (before ++ (Lexeme.plain c).text) = byteLength before + 1 := by
        rw [Text.byteLength_append, Lexeme.text, Text.byteLength_cons,
          Text.utf8Size_of_not_isHigh hlow]
        rfl
      rw [hsize, List.append_assoc] at htail
      rw [skipBlanks, if_pos h.lt_limit, byte_eq htext hlow, ok_bind, if_pos hc]
      exact htail

theorem ofLexemes_blanks (start : Nat) {blanks : List Char}
    (hblanks : ∀ c ∈ blanks, isBlank c = true) (rest : List Lexeme) :
    Reading.ofLexemes start (blanks.map .plain ++ rest) =
      Reading.ofLexemes (start + byteLength blanks) rest := by
  induction blanks generalizing start with
  | nil => rfl
  | cons c blanks ih =>
      obtain ⟨hc, hblanks⟩ := List.forall_mem_cons.mp hblanks
      have hstep : Step.ofLexeme start (.plain c) (blanks.map .plain ++ rest) =
          ⟨.nothing, [], start + 1, blanks.map .plain ++ rest⟩ := by
        rw [Step.ofLexeme, if_pos hc]
      rw [List.map_cons, List.cons_append, Reading.ofLexemes_cons _ _ _ hstep]
      dsimp only
      rw [ih _ hblanks, Text.byteLength_cons, utf8Size_of_isBlank hc, Nat.add_assoc]
      rfl

/-- Reading a region meets no fault, moves on at every turn, and gives the rules and the
flaws of its lexemes. -/
theorem rules_eq (h : Region text limit before lexemes) :
    rules text limit (byteLength before) = .ok (Reading.ofLexemes (byteLength before) lexemes) := by
  -- By length: a media block and what follows a turn are shorter.
  induction hlength : lexemes.length using Nat.strongRecOn generalizing limit before lexemes with
  | ind length ih =>
      subst hlength
      obtain ⟨blanks, rest, rfl, hblanks, hrest⟩ := exists_blanks lexemes
      have hregion := h.right
      rw [Lexeme.textOf_map_plain] at hregion
      rw [rules, skipBlanks_eq h hblanks hrest, ok_bind, ofLexemes_blanks _ hblanks,
        ← Text.byteLength_append]
      cases rest with
      | nil =>
          rw [if_neg (by rw [hregion.limit_eq]; exact Nat.lt_irrefl _), Reading.ofLexemes]
          rfl
      | cons lexeme more =>
          obtain ⟨⟨found, flaws, next⟩, hturn, hreads⟩ :=
            reads_turn hregion fun c hc => hrest c more (by rw [hc])
          obtain ⟨taken, following, item, htaken, hne, hnext, hgives, hreading⟩ :=
            hreads.exists_item
          dsimp only at hnext hgives hreading
          have hle : byteLength before ≤ byteLength (before ++ blanks) := by simp
          have hlt : byteLength (before ++ blanks) < next := by
            obtain ⟨first, taken, rfl⟩ := List.exists_cons_of_ne_nil hne
            have hpos := Text.byteLength_pos first.text_ne_nil
            rw [textOf_cons, Text.byteLength_append first.text] at hnext
            omega
          have hlength : (lexeme :: more).length = taken.length + following.length := by
            rw [htaken, List.length_append]
          have hshorter :
              following.length < (blanks.map Lexeme.plain ++ lexeme :: more).length := by
            have hpos := List.length_pos_iff.mpr hne
            rw [List.length_append]
            omega
          have hfollowing : Region text limit (before ++ blanks ++ textOf taken) following :=
            (htaken ▸ hregion : Region text limit _ (taken ++ following)).right
          have hrules := ih _ hshorter hfollowing rfl
          rw [Text.byteLength_append, ← hnext] at hrules
          rw [if_pos hregion.lt_limit, hturn, ok_bind, if_pos ⟨hle, hlt⟩, hreading]
          dsimp only
          cases hgives with
          | nothing =>
              rw [hrules]
              rfl
          | rule =>
              rw [hrules]
              rfl
          | @media first body bodyStop span region lt_start stop_le shorter =>
              have hblock := ih body.length (by rw [List.length_append]; omega) region rfl
              dsimp only
              rw [if_pos ⟨Nat.lt_of_le_of_lt hle lt_start, stop_le⟩, hblock, hrules]
              rfl

theorem ofText_eq (text : List Char) : ofText text = .ok (Reading.ofText text) := by
  have hregion (mark rest : List Char) (htext : text = mark ++ rest) :
      Region text (byteLength text) mark (Lexeme.ofText rest) := by
    refine ⟨Lexeme.lexed_ofText rest, ?_, [], ?_, by simp⟩
    · rw [Lexeme.textOf_ofText, htext, Text.byteLength_append]
    · rw [Lexeme.textOf_ofText, List.append_nil, htext]
  rw [ofText]
  split
  · rename_i hmark
    obtain ⟨rest, rfl⟩ := List.head?_eq_some_iff.mp hmark
    exact rules_eq (hregion ['\ufeff'] rest rfl)
  · rename_i hmark
    have hreading : Reading.ofText text = Reading.ofLexemes 0 (Lexeme.ofText text) := by
      rw [Reading.ofText]
      rintro rest rfl
      exact hmark rfl
    rw [hreading]
    exact rules_eq (hregion [] text rfl)

end StyleSplit.Stylesheet.InPlace

namespace StyleSplit.Stylesheet

/-- Reading any text in place reads no byte that is not there, cuts no character, counts
never below zero and moves on at every turn. Its rules stand apart and in order, at every
depth, and those of a block stand between its braces. -/
theorem inPlace_wellFormed (text : String) :
    InPlace.ofText text.toList = .ok (Reading.ofText text.toList) ∧
      ((ofText text).rules.Pairwise fun first second => first.span.stop ≤ second.span.start) ∧
      ∀ rule, Rule.Within (ofText text).rules rule → rule.WellFormed text := by
  refine ⟨InPlace.ofText_eq text.toList, ?_, fun rule hrule => (placed_of_within hrule).wellFormed⟩
  obtain ⟨mark, rest, -, -, hlayout⟩ := Reading.layout_ofText text.toList
  exact hlayout.ordered.1

end StyleSplit.Stylesheet
