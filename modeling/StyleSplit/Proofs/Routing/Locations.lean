import StyleSplit.Diagnostic.Snippet
import StyleSplit.Proofs.Outcome
import StyleSplit.Proofs.Stylesheet.Depth
import StyleSplit.Proofs.Stylesheet.Problems

/-! Where the issues of a split are: each is located at the delimiter or at the character that
it is about, and what stands there can be drawn. -/

namespace StyleSplit

open Text (byteLength)

namespace Snippet

theorem charRange?_append (before within after : List Char) :
    charRange? (before ++ (within ++ after))
        ⟨byteLength before, byteLength before + byteLength within⟩ =
      some (before.length, before.length + within.length) := by
  have hle : ¬ byteLength before + byteLength within < byteLength before := by omega
  simp [charRange?, Text.slice?, Text.cut?_byteLength, hle]

theorem isSome_charSpan?_append (before : List Char) {within after : List Char}
    (h : within ++ after ≠ []) :
    (charSpan? (before ++ (within ++ after))
      ⟨byteLength before, byteLength before + byteLength within⟩).isSome = true := by
  rw [charSpan?, charRange?_append]
  dsimp only [Option.bind_eq_bind, Option.bind_some]
  split
  · have hpos := List.length_pos_iff.mpr h
    rw [if_pos (by rw [List.length_append]; omega)]
    rfl
  · rfl

end Snippet

/-- A diagnostic is located at `span` in the file at `path`. The text is cut there between
characters, those of the range read `piece`, and they can be drawn. -/
structure Diagnostic.Locates (diagnostic : Diagnostic) (path text : String) (span : Span)
    (piece : String) : Prop where
  location_eq : diagnostic.location = some ⟨path, span⟩
  text?_eq : span.text? text = some piece
  exists_range : ∃ start stop, Snippet.charRange? text.toList span = some (start, stop) ∧
    text.toList.extract start stop = piece.toList
  isSome_snippet? : (diagnostic.snippet? ⟨path, span⟩ text).isSome = true

namespace Diagnostic

theorem isSome_snippet?_eq (diagnostic : Diagnostic) (location : Location) (source : String) :
    (diagnostic.snippet? location source).isSome =
      (Snippet.charSpan? source.toList location.span).isSome := by
  cases hspan : Snippet.charSpan? source.toList location.span <;> simp [snippet?, hspan]

theorem Locates.of_append {diagnostic : Diagnostic} {path text piece : String} {span : Span}
    {before after : List Char} (hlocation : diagnostic.location = some ⟨path, span⟩)
    (htext : text.toList = before ++ (piece.toList ++ after))
    (hspan : span = ⟨byteLength before, byteLength before + byteLength piece.toList⟩)
    (hne : piece.toList ++ after ≠ []) : diagnostic.Locates path text span piece := by
  subst hspan
  refine ⟨hlocation, ?_, ⟨before.length, before.length + piece.toList.length, ?_, ?_⟩, ?_⟩
  · exact Text.between?_eq_some_iff.mpr ⟨before, after, htext, rfl, rfl⟩
  · rw [htext, Snippet.charRange?_append]
  · rw [htext, List.extract_eq_take_drop, List.drop_left, Nat.add_sub_cancel_left,
      List.take_left]
  · rw [isSome_snippet?_eq, htext]
    exact Snippet.isSome_charSpan?_append before hne

end Diagnostic

def Issue.delimiter? : Issue → Option Delimiter
  | mismatch _ closing span => some (.closing closing span)
  | unclosed name span => some (.opening name span)
  | _ => none

namespace Delimiter

def span : Delimiter → Span
  | opening _ span => span
  | closing _ span => span

def commentClass : Delimiter → CommentClass
  | opening name _ => .opening name
  | closing name _ => .closing name

theorem exists_comment {rule : Rule} {delimiter : Delimiter}
    (h : rule.delimiter? = some delimiter) :
    ∃ body, rule = .comment body delimiter.span ∧
      CommentClass.ofBody body = delimiter.commentClass := by
  cases rule with
  | comment body span =>
      refine ⟨body, ?_⟩
      rw [Rule.delimiter?] at h
      have hclass : (Rule.comment body span).commentClass? = some (CommentClass.ofBody body) := rfl
      rw [hclass] at h
      cases hbody : CommentClass.ofBody body with
      | opening name =>
          rw [hbody] at h
          cases h
          exact ⟨rfl, rfl⟩
      | closing name =>
          rw [hbody] at h
          cases h
          exact ⟨rfl, rfl⟩
      | stalePragma => simp [hbody] at h
      | content => simp [hbody] at h
  | style => cases h
  | atRule => cases h
  | media => cases h

theorem filterMap_unclosed (starts : List Start) :
    (starts.map Start.unclosed).filterMap Issue.delimiter? = starts.map Start.opening := by
  rw [List.filterMap_map, ← List.filterMap_eq_map]
  rfl

/-- A delimiter gives an issue, is open afterwards, or ends a start that no issue is about. -/
theorem subperm_next (starts : List Start) (delimiter : Delimiter) :
    ((mismatch? starts delimiter).toList.filterMap Issue.delimiter? ++
      (next starts delimiter).map Start.opening).Subperm
        (delimiter :: starts.map Start.opening) := by
  cases delimiter with
  | opening name span => exact List.Subperm.refl _
  | closing name span =>
      cases hissue : mismatch? starts (closing name span) with
      | none =>
          obtain ⟨openedAt, outer, rfl, hnext⟩ := exists_of_closing hissue
          rw [hnext, List.map_cons]
          exact ((List.sublist_cons_self _ _).trans (List.sublist_cons_self _ _)).subperm
      | some issue =>
          obtain ⟨active, rfl⟩ := exists_mismatch hissue
          rw [next_of_mismatch? hissue]
          exact List.Subperm.refl _

theorem subperm_issues (starts : List Start) (delimiters : List Delimiter) :
    ((mismatches starts delimiters ++
      (pending starts delimiters).map Start.unclosed).filterMap Issue.delimiter?).Subperm
        (delimiters ++ starts.map Start.opening) := by
  induction delimiters generalizing starts with
  | nil =>
      rw [mismatches, List.nil_append, filterMap_unclosed]
      exact List.Subperm.refl _
  | cons delimiter delimiters ih =>
      rw [mismatches, pending_cons, List.append_assoc, List.filterMap_append]
      have hrest := (List.subperm_append_left
        ((mismatch? starts delimiter).toList.filterMap Issue.delimiter?)).mpr
          (ih (next starts delimiter))
      have hfirst := (List.subperm_append_left delimiters).mpr (subperm_next starts delimiter)
      have hswap := List.perm_append_comm_assoc
        ((mismatch? starts delimiter).toList.filterMap Issue.delimiter?) delimiters
        ((next starts delimiter).map Start.opening)
      exact (hrest.trans hswap.subperm).trans (hfirst.trans List.perm_middle.subperm)

theorem nodup_map_span (text : String) :
    (((Stylesheet.ofText text).rules.filterMap Rule.delimiter?).map span).Nodup := by
  obtain ⟨loose, before, within, -, hlayout⟩ := Stylesheet.layout_rules text
  rw [List.Nodup, List.pairwise_map]
  refine (List.pairwise_map.mp hlayout.pairwise_start_lt.1).filterMap _ ?_
  intro first second hlt earlier hearlier later hlater hsame
  obtain ⟨body, rfl, -⟩ := exists_comment hearlier
  obtain ⟨other, rfl, -⟩ := exists_comment hlater
  have hlt : earlier.span.start < later.span.start := hlt
  rw [hsame] at hlt
  exact Nat.lt_irrefl _ hlt

end Delimiter

namespace Stylesheet

theorem exists_position_of_mem_problems {text : String} {problem : ParseProblem}
    (h : problem ∈ (ofText text).problems) :
    problem.offset < text.utf8ByteSize ∧ Text.isBoundary text problem.offset = true ∧
      Position.ofOffset? text problem.offset = some problem.position := by
  obtain ⟨before, c, after, htext, hoffset⟩ := exists_char_of_mem_problems h
  refine ⟨?_, ?_, ofOffset?_of_mem_problems h⟩
  · rw [← hoffset, ← Text.byteLength_toList, htext, Text.byteLength_append]
    exact Nat.lt_add_of_pos_right (Text.byteLength_pos (List.cons_ne_nil c after))
  · rw [← hoffset]
    exact Text.isBoundary_byteLength htext

end Stylesheet

namespace Routing

/-- Problems are in the order in which they stand in the text, each at a character and with
the position of its offset, which the index finds too. So the only issue with a text that has
problems is about its earliest one. -/
theorem problems_ofDocument (document : Document) (options : Options) :
    let problems := (Stylesheet.ofText document.text).problems
    (problems.map (·.offset)).Pairwise (· ≤ ·) ∧
      (∀ problem ∈ problems,
        problem.offset < document.text.utf8ByteSize ∧
        Text.isBoundary document.text problem.offset = true ∧
        Position.ofOffset? document.text problem.offset = some problem.position ∧
        (LineIndex.ofText document.text).position? problem.offset = some problem.position) ∧
      (problems ≠ [] → ∃ earliest ∈ problems,
        (ofDocument document options).issues = [.parse earliest] ∧
        ∀ problem ∈ problems, earliest.offset ≤ problem.offset) := by
  intro problems
  have hsorted : (problems.map (·.offset)).Pairwise (· ≤ ·) :=
    Stylesheet.pairwise_offset_problems document.text
  refine ⟨hsorted, ?_, ?_⟩
  · intro problem hproblem
    obtain ⟨hlt, hboundary, hposition⟩ := Stylesheet.exists_position_of_mem_problems hproblem
    refine ⟨hlt, hboundary, hposition, ?_⟩
    rw [LineIndex.position?_ofText]
    exact hposition
  · intro hne
    obtain ⟨earliest, later, hcons⟩ := List.exists_cons_of_ne_nil hne
    rw [hcons, List.map_cons, List.pairwise_cons] at hsorted
    refine ⟨earliest, by rw [hcons]; exact List.mem_cons_self, ?_, ?_⟩
    · rw [ofDocument, ofStylesheet, show (Stylesheet.ofText document.text).problems = _ from hcons]
    · intro problem hproblem
      rw [hcons] at hproblem
      rcases List.mem_cons.mp hproblem with rfl | hlater
      · exact Nat.le_refl _
      · exact hsorted.1 problem.offset (List.mem_map_of_mem hlater)

theorem problems_ofDocument_media :
    let document : Document := {
      path := "a.css"
      text := "/*é*/@ p\x7b\x7d\n@media p\x7b \x7bé\x7d\n b; \x7d" }
    let problems := (Stylesheet.ofText document.text).problems
    problems.map (fun problem => (problem.offset, problem.position)) =
        [(6, ⟨1, 5⟩), (22, ⟨2, 10⟩), (28, ⟨3, 1⟩)] ∧
      ∃ earliest ∈ problems, (ofDocument document {}).issues = [.parse earliest] ∧
        ∀ problem ∈ problems, earliest.offset ≤ problem.offset := by
  intro document problems
  have hfound : problems.map (fun problem => (problem.offset, problem.position)) =
      [(6, ⟨1, 5⟩), (22, ⟨2, 10⟩), (28, ⟨3, 1⟩)] := by decide +kernel
  obtain ⟨-, -, hreported⟩ := problems_ofDocument document {}
  refine ⟨hfound, hreported ?_⟩
  intro hnone
  rw [show problems = [] from hnone] at hfound
  cases hfound

end Routing

theorem Issue.location_toDiagnostic {issue : Issue} {delimiter : Delimiter}
    (h : issue.delimiter? = some delimiter) (path : String) :
    (issue.toDiagnostic path).location = some ⟨path, delimiter.span⟩ := by
  cases issue with
  | mismatch active closing span =>
      cases h
      cases active <;> rfl
  | unclosed name span =>
      cases h
      rfl
  | parse | collision | invalidMap | internal => cases h

namespace Outcome

variable {document : Document} {options : Options} {issue : Issue} {delimiter : Delimiter}

theorem filterMap_delimiter?_collisions (path : Block → String) (blocks : List Block) :
    (collisions path blocks).filterMap Issue.delimiter? = [] := by
  rw [List.filterMap_eq_nil_iff]
  intro issue hissue
  obtain ⟨claim, -, hclaim⟩ := List.mem_filterMap.mp hissue
  obtain ⟨owner, -, rfl⟩ := Option.map_eq_some_iff.mp hclaim
  rfl

/-- The issues of a split are about delimiters of its stylesheet, each about another one. A
stylesheet with a problem gives no such issue. -/
theorem subperm_ofDocument (document : Document) (options : Options) :
    let stylesheet := Stylesheet.ofText document.text
    let found := (ofDocument document options).issues.filterMap Issue.delimiter?
    found.Subperm (stylesheet.rules.filterMap Rule.delimiter?) ∧
      (stylesheet.isClean = false → found = []) := by
  intro stylesheet found
  have hfound : found =
      (Routing.ofDocument document options).issues.filterMap Issue.delimiter? := by
    unfold found ofDocument
    rw [ofStylesheet_eq]
    dsimp only
    rw [List.filterMap_append, filterMap_delimiter?_collisions, List.append_nil]
    rfl
  rw [hfound]
  cases hclean : stylesheet.isClean with
  | false =>
      have hnone :
          (Routing.ofDocument document options).issues.filterMap Issue.delimiter? = [] := by
        rw [Stylesheet.isClean, List.isEmpty_eq_false_iff] at hclean
        obtain ⟨problem, later, hproblems⟩ := List.exists_cons_of_ne_nil hclean
        rw [Routing.ofDocument, Routing.ofStylesheet,
          show (Stylesheet.ofText document.text).problems = _ from hproblems]
        rfl
      rw [hnone]
      exact ⟨List.nil_subperm, fun _ => rfl⟩
  | true =>
      have hmap : (Routing.usableMap document options).2.filterMap Issue.delimiter? = [] := by
        rw [List.filterMap_eq_nil_iff]
        intro issue hissue
        obtain ⟨reason, rfl⟩ := Routing.exists_of_mem_usableMap hissue
        rfl
      have hsubperm := Delimiter.subperm_issues [] (stylesheet.rules.filterMap Rule.delimiter?)
      rw [Routing.issues_ofDocument options hclean, List.append_assoc, List.filterMap_append, hmap,
        List.nil_append]
      rw [List.map_nil, List.append_nil] at hsubperm
      exact ⟨hsubperm, fun hfalse => Bool.noConfusion hfalse⟩

theorem exists_locates (hissue : issue ∈ (ofDocument document options).issues)
    (hdelimiter : issue.delimiter? = some delimiter) (path : String) :
    ∃ body, CommentClass.ofBody body = delimiter.commentClass ∧
      (issue.toDiagnostic path).Locates path document.text delimiter.span
        ("/*" ++ body ++ "*/") := by
  have hfound : delimiter ∈ (ofDocument document options).issues.filterMap Issue.delimiter? :=
    List.mem_filterMap.mpr ⟨issue, hissue, hdelimiter⟩
  obtain ⟨hsubperm, hnone⟩ := subperm_ofDocument document options
  have hclean : (Stylesheet.ofText document.text).isClean = true := by
    rw [← Bool.not_eq_false]
    intro hfalse
    rw [hnone hfalse] at hfound
    cases hfound
  obtain ⟨rule, hrule, hdelimits⟩ := List.mem_filterMap.mp (hsubperm.subset hfound)
  obtain ⟨body, rfl, hbody⟩ := Delimiter.exists_comment hdelimits
  obtain ⟨before, after, htext, hspan⟩ := Stylesheet.exists_comment_of_mem hclean hrule
  refine ⟨body, hbody, .of_append (Issue.location_toDiagnostic hdelimiter path) htext hspan ?_⟩
  simp

theorem mem_problems_of_parse {problem : ParseProblem}
    (h : .parse problem ∈ (ofDocument document options).issues) :
    problem ∈ (Stylesheet.ofText document.text).problems := by
  rw [ofDocument, ofStylesheet_eq] at h
  rcases List.mem_append.mp h with hrouting | hcollision
  · cases hproblems : (Stylesheet.ofText document.text).problems with
    | cons first later =>
        rw [Routing.ofStylesheet, hproblems, List.mem_singleton] at hrouting
        injection hrouting with hfirst
        rw [hfirst]
        exact List.mem_cons_self
    | nil =>
        rcases Routing.invalidMap_or_isNesting hproblems hrouting with ⟨reason, h⟩ | h <;> cases h
  · rw [← filter_isCollision_collisions] at hcollision
    cases (List.mem_filter.mp hcollision).2

/-- An issue about a delimiter is located at a comment that classifies as that delimiter, and
no two of them at one place. A problem is located right before a character of the text. The
range of characters is there in each case, so that it can be drawn. -/
theorem locations_ofDocument (document : Document) (options : Options) (path : String) :
    let text := document.text
    let issues := (ofDocument document options).issues
    (∀ active closing span, .mismatch active closing span ∈ issues →
      ∃ body, CommentClass.ofBody body = .closing closing ∧
        ((Issue.mismatch active closing span).toDiagnostic path).Locates path text span
          ("/*" ++ body ++ "*/")) ∧
      (∀ name span, .unclosed name span ∈ issues →
        ∃ body, CommentClass.ofBody body = .opening name ∧
          ((Issue.unclosed name span).toDiagnostic path).Locates path text span
            ("/*" ++ body ++ "*/")) ∧
      ((issues.filterMap Issue.delimiter?).map Delimiter.span).Nodup ∧
      ∀ problem, .parse problem ∈ issues →
        problem.offset < text.utf8ByteSize ∧ Text.isBoundary text problem.offset = true ∧
        ((Issue.parse problem).toDiagnostic path).Locates path text
          ⟨problem.offset, problem.offset⟩ "" ∧
        ∃ index, index < text.toList.length ∧
          Snippet.charRange? text.toList ⟨problem.offset, problem.offset⟩ =
            some (index, index) := by
  intro text issues
  refine ⟨?_, ?_, ?_, ?_⟩
  · intro active closing span hissue
    exact exists_locates hissue rfl path
  · intro name span hissue
    exact exists_locates hissue rfl path
  · obtain ⟨found, hperm, hsublist⟩ := (subperm_ofDocument document options).1
    have hnodup := (Delimiter.nodup_map_span text).sublist (hsublist.map Delimiter.span)
    exact (hperm.map Delimiter.span).nodup_iff.mp hnodup
  · intro problem hissue
    have hproblem := mem_problems_of_parse hissue
    obtain ⟨hlt, hboundary, -⟩ := Stylesheet.exists_position_of_mem_problems hproblem
    obtain ⟨before, c, after, htext, hoffset⟩ := Stylesheet.exists_char_of_mem_problems hproblem
    have hcut : text.toList = before ++ ([] ++ c :: after) := htext
    refine ⟨hlt, hboundary, .of_append rfl hcut ?_ (List.cons_ne_nil c after),
      before.length, ?_, ?_⟩
    · rw [← hoffset]
      rfl
    · rw [hcut]
      simp
    · rw [hcut, ← hoffset]
      exact Snippet.charRange?_append before [] (c :: after)

/-- An end between two starts of one block, of which the outer one is left open like the start
of another block; and an at-rule without a name. -/
theorem locations_ofDocument_reopened :
    let document : Document := {
      path := "main.css"
      text := "é\x7b\x7d/*! start:a.css *//*! start:a.css */\n/*! end:b.css */ü\x7b\x7d" ++
        "/*!end:a.css*//*! start:c.css */" }
    let broken : Document := { path := "main.css", text := "é\x7b\x7d/*ü*/ @;" }
    let issues := (ofDocument document {}).issues
    let problem : ParseProblem := ⟨"missing at-rule name after '@'", 11, ⟨1, 9⟩⟩
    issues = [.mismatch (some "a.css") "b.css" ⟨41, 57⟩, .unclosed "c.css" ⟨75, 93⟩,
        .unclosed "a.css" ⟨4, 22⟩] ∧
      (∃ body, CommentClass.ofBody body = .closing "b.css" ∧
        ((Issue.mismatch (some "a.css") "b.css" ⟨41, 57⟩).toDiagnostic "main.css").Locates
          "main.css" document.text ⟨41, 57⟩ ("/*" ++ body ++ "*/")) ∧
      (∃ body, CommentClass.ofBody body = .opening "a.css" ∧
        ((Issue.unclosed "a.css" ⟨4, 22⟩).toDiagnostic "main.css").Locates "main.css" document.text
          ⟨4, 22⟩ ("/*" ++ body ++ "*/")) ∧
      (ofDocument broken {}).issues = [.parse problem] ∧
      ((Issue.parse problem).toDiagnostic "main.css").Locates "main.css" broken.text
        ⟨11, 11⟩ "" := by
  intro document broken issues problem
  have hissues : issues = [.mismatch (some "a.css") "b.css" ⟨41, 57⟩,
      .unclosed "c.css" ⟨75, 93⟩, .unclosed "a.css" ⟨4, 22⟩] := by decide +kernel
  have hbroken : (ofDocument broken {}).issues = [.parse problem] := by decide +kernel
  obtain ⟨hmismatch, hunclosed, -, -⟩ := locations_ofDocument document {} "main.css"
  obtain ⟨-, -, -, hparse⟩ := locations_ofDocument broken {} "main.css"
  refine ⟨hissues, hmismatch _ _ _ ?_, hunclosed _ _ ?_, hbroken, (hparse problem ?_).2.2.1⟩
  · change _ ∈ issues
    rw [hissues]
    exact List.mem_cons_self
  · change _ ∈ issues
    rw [hissues]
    exact List.mem_cons_of_mem _ (List.mem_cons_of_mem _ List.mem_cons_self)
  · rw [hbroken]
    exact List.mem_singleton_self _

end Outcome

end StyleSplit
