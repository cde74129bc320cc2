import StyleSplit.Proofs.Routing.Blocks
import StyleSplit.Proofs.Routing.Delimiters

/-! The issues that delimiters give in a split: one for each end that does not name the
innermost open start, and one for each start that is never ended. -/

namespace StyleSplit

def Nesting.starts (nesting : Nesting) : List Delimiter.Start :=
  nesting.stack.map fun level => ⟨level.name, level.openedAt⟩

theorem Nesting.starts_opened (nesting : Nesting) (policy : ReopenPolicy) (name : String)
    (openedAt : Span) :
    (nesting.opened policy name openedAt).starts = ⟨name, openedAt⟩ :: nesting.starts := by
  unfold opened
  split <;> rfl

theorem Nesting.starts_closed (nesting : Nesting) (name : String) (span : Span) :
    (nesting.closed name).starts = Delimiter.next nesting.starts (.closing name span) := by
  unfold closed starts
  cases hstack : nesting.stack with
  | nil => simp [hstack, Delimiter.next]
  | cons level stack =>
      rw [List.map_cons, Delimiter.next]
      dsimp only
      split
      · rfl
      · rw [hstack, List.map_cons]

theorem Nesting.starts_step (policy : ReopenPolicy) (nesting : Nesting) (rule : Rule) :
    (nesting.step policy rule).starts =
      Delimiter.pending nesting.starts rule.delimiter?.toList := by
  unfold step Rule.delimiter?
  cases rule.commentClass? with
  | none => rfl
  | some commentClass =>
      cases commentClass with
      | opening name => exact nesting.starts_opened policy name rule.span
      | closing name => exact nesting.starts_closed name rule.span
      | stalePragma => rfl
      | content => rfl

theorem filterMap_delimiter?_cons (rule : Rule) (rules : List Rule) :
    (rule :: rules).filterMap Rule.delimiter? =
      rule.delimiter?.toList ++ rules.filterMap Rule.delimiter? := by
  rw [List.filterMap_cons]
  cases rule.delimiter? <;> rfl

theorem Nesting.starts_run (policy : ReopenPolicy) (nesting : Nesting) (rules : List Rule) :
    (nesting.run policy rules).starts =
      Delimiter.pending nesting.starts (rules.filterMap Rule.delimiter?) := by
  induction rules generalizing nesting with
  | nil => rfl
  | cons rule rules ih =>
      rw [run_cons, ih, starts_step, filterMap_delimiter?_cons, Delimiter.pending,
        Delimiter.pending, Delimiter.pending, List.foldl_append]

namespace Registry.Follows

variable {registry : Registry} {policy : ReopenPolicy} {documentName : String}
  {nesting : Nesting}

theorem closeBlock_error (h : registry.Follows policy documentName nesting) (name : String)
    (closedAt : Span) :
    match registry.closeBlock name closedAt with
    | .ok _ => Delimiter.mismatch? nesting.starts (.closing name closedAt) = none
    | .error issue =>
        Delimiter.mismatch? nesting.starts (.closing name closedAt) = some issue := by
  unfold Registry.closeBlock active Nesting.starts
  rw [h.activeId_eq, Nesting.top]
  cases hstack : nesting.stack with
  | nil => simp [h.label_document, Delimiter.mismatch?]
  | cons level stack =>
      obtain ⟨index, hid, hname⟩ := h.named level (by simp [hstack])
      obtain ⟨hidentity, hnamed⟩ := h.label_of_getElem? hname
      dsimp only [List.head?_cons, Option.elim_some]
      rw [hid, hidentity, hnamed, if_neg (by simp), List.map_cons]
      by_cases hsame : level.name = name
      · rw [if_neg (by simpa using hsame)]
        exact if_pos hsame
      · rw [if_pos hsame]
        exact if_neg hsame

theorem unclosed_eq (h : registry.Follows policy documentName nesting) :
    registry.unclosed = nesting.starts.map Delimiter.Start.unclosed := by
  rw [unclosed, h.stack, List.dropLast_concat, Nesting.starts, List.map_map, List.map_map]
  apply List.map_congr_left
  intro level hlevel
  obtain ⟨index, hid, hname⟩ := h.named level hlevel
  obtain ⟨hidentity, -⟩ := h.label_of_getElem? hname
  simp only [Function.comp_apply, Delimiter.Start.unclosed, hid, hidentity]

end Registry.Follows

namespace Routing

theorem State.step_closing {state : State} {policy : ReopenPolicy} {documentName : String}
    {nesting : Nesting} (h : state.registry.Follows policy documentName nesting) {rule : Rule}
    {name : String} (hclass : rule.commentClass? = some (.closing name)) (text : String)
    (map : Option SourceMap) (index : LineIndex) :
    (state.step text map index rule).mismatches = state.mismatches ++
        (Delimiter.mismatch? nesting.starts (.closing name rule.span)).toList ∧
      (Delimiter.mismatch? nesting.starts (.closing name rule.span) ≠ none →
        (state.step text map index rule).registry = state.registry) := by
  have hcomment : rule.comment?.map CommentClass.ofBody = some (.closing name) := hclass
  have hclose := h.closeBlock_error name rule.span
  unfold State.step
  rw [hcomment]
  dsimp only
  cases hresult : state.registry.closeBlock name rule.span with
  | ok closed =>
      rw [hresult] at hclose
      exact ⟨by rw [hclose]; simp, fun hissue => absurd hclose hissue⟩
  | error issue =>
      rw [hresult] at hclose
      exact ⟨by rw [hclose]; rfl, fun _ => rfl⟩

theorem State.mismatches_step {state : State} {policy : ReopenPolicy} {documentName : String}
    {nesting : Nesting} (h : state.registry.Follows policy documentName nesting) (rule : Rule)
    (text : String) (map : Option SourceMap) (index : LineIndex) :
    (state.step text map index rule).mismatches = state.mismatches ++
      Delimiter.mismatches nesting.starts rule.delimiter?.toList := by
  have hclass : rule.comment?.map CommentClass.ofBody = rule.commentClass? := rfl
  cases hcases : rule.commentClass? with
  | none => simp [State.step, Rule.delimiter?, hclass, hcases, Delimiter.mismatches]
  | some commentClass =>
      cases commentClass with
      | closing name =>
          rw [(step_closing h hcases text map index).1]
          simp [Rule.delimiter?, hcases, Delimiter.mismatches]
      | opening name =>
          simp [State.step, Rule.delimiter?, hclass, hcases, Delimiter.mismatches,
            Delimiter.mismatch?]
      | stalePragma => simp [State.step, Rule.delimiter?, hclass, hcases, Delimiter.mismatches]
      | content => simp [State.step, Rule.delimiter?, hclass, hcases, Delimiter.mismatches]

theorem mismatches_foldl {state : State} {text : String} {map : Option SourceMap}
    {index : LineIndex} {policy : ReopenPolicy} {documentName : String} {nesting : Nesting}
    {routed : List (Nat × Rule)}
    (h : state.Tracks text (originsOf map index) policy documentName nesting routed)
    (rules : List Rule) :
    (rules.foldl (fun (state : State) rule => state.step text map index rule)
        state).mismatches =
      state.mismatches ++
        Delimiter.mismatches nesting.starts (rules.filterMap Rule.delimiter?) := by
  induction rules generalizing state nesting routed with
  | nil => simp [Delimiter.mismatches]
  | cons rule rules ih =>
      rw [List.foldl_cons, ih (h.step rule), State.mismatches_step h.follows rule text map index,
        Nesting.starts_step, filterMap_delimiter?_cons, List.append_assoc]
      cases rule.delimiter? with
      | none => rfl
      | some delimiter => simp [Delimiter.mismatches, Delimiter.pending]

theorem mismatches_stateAfter (document : Document) (options : Options) (rules : List Rule) :
    (stateAfter document options rules).mismatches =
      Delimiter.mismatches [] (rules.filterMap Rule.delimiter?) :=
  mismatches_foldl (State.tracks_new (Path.fileName document.path) document.text
    (originsOf (usableMap document options).1 (.ofText document.text)) options.reopen) rules

theorem usableMap_of_none {document : Document} (options : Options)
    (hmap : document.map = none) : usableMap document options = (none, []) := by
  rw [usableMap, hmap]
  split <;> rfl

theorem issues_usableMap (document : Document) (options : Options) :
    (usableMap document options).2 = [] ∨
      ∃ reason, (usableMap document options).2 = [.invalidMap reason] := by
  unfold usableMap
  split
  · split
    · exact .inl rfl
    · exact .inr ⟨_, rfl⟩
    · split
      · exact .inr ⟨_, rfl⟩
      · exact .inl rfl
  · exact .inl rfl

theorem exists_of_mem_usableMap {document : Document} {options : Options} {issue : Issue}
    (h : issue ∈ (usableMap document options).2) : ∃ reason, issue = .invalidMap reason := by
  rcases issues_usableMap document options with hnone | ⟨reason, hone⟩
  · rw [hnone] at h
    cases h
  · rw [hone] at h
    exact ⟨reason, List.mem_singleton.mp h⟩

theorem issues_ofDocument {document : Document} (options : Options)
    (hclean : (Stylesheet.ofText document.text).isClean = true) :
    let delimiters := (Stylesheet.ofText document.text).rules.filterMap Rule.delimiter?
    (ofDocument document options).issues = (usableMap document options).2 ++
      Delimiter.mismatches [] delimiters ++
        (Delimiter.pending [] delimiters).map Delimiter.Start.unclosed := by
  intro delimiters
  have hfollows := (tracks_stateAfter document options
    (Stylesheet.ofText document.text).rules).follows
  rw [(ofDocument_eq_stateAfter options hclean).2, hfollows.unclosed_eq, mismatches_stateAfter,
    Nesting.starts_run]
  rfl

theorem filter_isNesting_issues {document : Document} (options : Options)
    (hclean : (Stylesheet.ofText document.text).isClean = true) :
    let delimiters := (Stylesheet.ofText document.text).rules.filterMap Rule.delimiter?
    (ofDocument document options).issues.filter Issue.isNesting =
      Delimiter.mismatches [] delimiters ++
        (Delimiter.pending [] delimiters).map Delimiter.Start.unclosed := by
  intro delimiters
  rw [issues_ofDocument options hclean, List.filter_append, List.filter_append]
  have hmap : (usableMap document options).2.filter Issue.isNesting = [] := by
    rw [List.filter_eq_nil_iff]
    intro issue hissue
    obtain ⟨reason, rfl⟩ := exists_of_mem_usableMap hissue
    exact Bool.false_ne_true
  have hall : ∀ issue ∈ Delimiter.mismatches [] delimiters, issue.isNesting = true :=
    fun issue hissue => (Delimiter.isNesting_of_mem_mismatches hissue).1
  rw [hmap, List.nil_append, List.filter_eq_self.mpr hall, List.filter_eq_self.mpr]
  intro issue hissue
  obtain ⟨start, -, rfl⟩ := List.mem_map.mp hissue
  rfl

/-- The issues about nesting are one for each end that does not name the innermost open
start, and then one for each start that is open at the end, the innermost first. There
are none exactly when the delimiters are in pairs. An end that gives an issue changes
nothing, and each start is ended by an end without one or is left open. -/
theorem nesting_issues_ofDocument (document : Document) (options : Options)
    (hclean : (Stylesheet.ofText document.text).isClean = true) :
    let rules := (Stylesheet.ofText document.text).rules
    let delimiters := rules.filterMap Rule.delimiter?
    let accepted := Delimiter.accepted [] delimiters
    let issues := (ofDocument document options).issues.filter Issue.isNesting
    issues = Delimiter.mismatches [] delimiters ++
        (Delimiter.pending [] delimiters).map Delimiter.Start.unclosed ∧
      Delimiter.Leaves (Delimiter.pending [] delimiters) accepted ∧
      (ofDocument document options).blocks =
        (stateAfter document options rules).registry.blocks.toList ∧
      (∀ earlier rule later name, rules = earlier ++ rule :: later →
        rule.commentClass? = some (.closing name) →
        Delimiter.mismatch? (Delimiter.pending [] (earlier.filterMap Rule.delimiter?))
          (.closing name rule.span) ≠ none →
        (stateAfter document options (earlier ++ [rule])).registry =
          (stateAfter document options earlier).registry) ∧
      (issues = [] ↔ Delimiter.Nested delimiters) ∧
      delimiters.countP Delimiter.isOpening =
        accepted.countP Delimiter.isClosing + issues.countP Issue.isUnclosed ∧
      delimiters.countP Delimiter.isClosing =
        accepted.countP Delimiter.isClosing + issues.countP (fun issue => !issue.isUnclosed) := by
  intro rules delimiters accepted issues
  have hissues : issues = Delimiter.mismatches [] delimiters ++
      (Delimiter.pending [] delimiters).map Delimiter.Start.unclosed :=
    filter_isNesting_issues options hclean
  obtain ⟨hunclosed, hmismatches⟩ :=
    Delimiter.countP_isUnclosed [] (Delimiter.pending [] delimiters) delimiters
  refine ⟨hissues, ?_, (ofDocument_eq_stateAfter options hclean).1, ?_, ?_, ?_, ?_⟩
  · exact Delimiter.leaves_accepted (.nested .nil) delimiters
  · intro earlier rule later name _ hclass herror
    have hfollows := (tracks_stateAfter document options earlier).follows
    have hstarts := Nesting.starts_run options.reopen {} earlier
    change _ = Delimiter.pending [] _ at hstarts
    rw [← hstarts] at herror
    rw [stateAfter, List.foldl_append]
    exact (State.step_closing hfollows hclass document.text _ _).2 herror
  · rw [hissues, List.append_eq_nil_iff, List.map_eq_nil_iff, Delimiter.nested_iff]
  · have hcount := Delimiter.countP_accepted [] delimiters
    rw [List.length_nil, Nat.zero_add] at hcount
    rw [hissues, hunclosed]
    exact hcount
  · rw [hissues, hmismatches]
    exact Delimiter.countP_isClosing [] delimiters

theorem nesting_issues_ofDocument_reopened :
    let document : Document := {
      path := "main.css"
      text := "/*! start:a.css */\n/*! start:a.css */.b\x7b\x7d\n/*! end:b.css */\n" ++
        "/*! end:a.css */\n/*! end:a.css */\n/*! end:a.css */\n/*! start:c.css */" }
    let delimiters := (Stylesheet.ofText document.text).rules.filterMap Rule.delimiter?
    (Stylesheet.ofText document.text).isClean = true ∧
      (ofDocument document {}).issues.filter Issue.isNesting = [
        .mismatch (some "a.css") "b.css" ⟨42, 58⟩,
        .mismatch none "a.css" ⟨93, 109⟩,
        .unclosed "c.css" ⟨110, 128⟩] ∧
      ¬ Delimiter.Nested delimiters := by
  intro document delimiters
  have hclean : (Stylesheet.ofText document.text).isClean = true := by decide +kernel
  obtain ⟨hissues, -, -, -, hnested, -, -⟩ := nesting_issues_ofDocument document {} hclean
  have hreported : Delimiter.mismatches [] delimiters ++
      (Delimiter.pending [] delimiters).map Delimiter.Start.unclosed = [
        .mismatch (some "a.css") "b.css" ⟨42, 58⟩,
        .mismatch none "a.css" ⟨93, 109⟩,
        .unclosed "c.css" ⟨110, 128⟩] := by decide +kernel
  have hfound := hissues.trans hreported
  refine ⟨hclean, hfound, ?_⟩
  intro hpairs
  have hnone := hnested.mpr hpairs
  rw [hfound] at hnone
  cases hnone

end Routing

end StyleSplit
