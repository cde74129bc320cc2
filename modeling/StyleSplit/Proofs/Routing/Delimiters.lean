import StyleSplit.Proofs.Routing.Nesting

/-! Delimiters as a language of brackets: the starts that are open at each of them, the
ends that do not fit, and the words in which all are in pairs. Which blocks the starts
share plays no part in it. -/

namespace StyleSplit

inductive Delimiter where
  | opening (name : String) (span : Span)
  | closing (name : String) (span : Span)
  deriving DecidableEq, Repr

def Rule.delimiter? (rule : Rule) : Option Delimiter :=
  match rule.commentClass? with
  | some (.opening name) => some (.opening name rule.span)
  | some (.closing name) => some (.closing name rule.span)
  | _ => none

theorem Rule.delimiter?_of_isPassive {rule : Rule} (h : rule.isPassive = true) :
    rule.delimiter? = none := by
  rw [isPassive] at h
  rw [delimiter?]
  cases hclass : rule.commentClass? with
  | none => rfl
  | some commentClass =>
      rw [hclass] at h
      cases commentClass with
      | opening => cases h
      | closing => cases h
      | stalePragma => rfl
      | content => rfl

def Issue.isNesting : Issue → Bool
  | mismatch _ _ _ | unclosed _ _ => true
  | _ => false

def Issue.isUnclosed : Issue → Bool
  | unclosed _ _ => true
  | _ => false

namespace Delimiter

def isOpening : Delimiter → Bool
  | opening _ _ => true
  | closing _ _ => false

def isClosing (delimiter : Delimiter) : Bool :=
  !delimiter.isOpening

structure Start where
  name : String
  span : Span
  deriving DecidableEq, Repr

def Start.opening (start : Start) : Delimiter :=
  .opening start.name start.span

def Start.unclosed (start : Start) : Issue :=
  .unclosed start.name start.span

/-! The starts that are open are listed with the innermost first. -/

def next (starts : List Start) : Delimiter → List Start
  | opening name span => ⟨name, span⟩ :: starts
  | closing name _ =>
      match starts with
      | [] => []
      | start :: outer => if start.name = name then outer else starts

/-- An end is in error unless it names the innermost open start. -/
def mismatch? (starts : List Start) : Delimiter → Option Issue
  | opening _ _ => none
  | closing name span =>
      match starts with
      | [] => some (.mismatch none name span)
      | start :: _ =>
          if start.name = name then none else some (.mismatch (some start.name) name span)

def pending (starts : List Start) (delimiters : List Delimiter) : List Start :=
  delimiters.foldl next starts

def mismatches (starts : List Start) : List Delimiter → List Issue
  | [] => []
  | delimiter :: delimiters =>
      (mismatch? starts delimiter).toList ++ mismatches (next starts delimiter) delimiters

def accepted (starts : List Start) : List Delimiter → List Delimiter
  | [] => []
  | delimiter :: delimiters =>
      if mismatch? starts delimiter = none then
        delimiter :: accepted (next starts delimiter) delimiters
      else accepted (next starts delimiter) delimiters

/-- Delimiters in pairs: every end names the start that it belongs to, which is the last
one before it that is not ended. -/
inductive Nested : List Delimiter → Prop
  | nil : Nested []
  | pair {inner rest : List Delimiter} (name : String) (openedAt closedAt : Span)
      (hinner : Nested inner) (hrest : Nested rest) :
      Nested (opening name openedAt :: inner ++ closing name closedAt :: rest)

/-- Delimiters in pairs but for some starts that are not ended. -/
inductive Leaves : List Start → List Delimiter → Prop
  | nested {delimiters : List Delimiter} (h : Nested delimiters) : Leaves [] delimiters
  | start {starts : List Start} {before after : List Delimiter} (start : Start)
      (hbefore : Leaves starts before) (hafter : Nested after) :
      Leaves (start :: starts) (before ++ start.opening :: after)

variable {starts : List Start} {delimiter : Delimiter} {delimiters : List Delimiter}

theorem next_of_mismatch? {issue : Issue} (h : mismatch? starts delimiter = some issue) :
    next starts delimiter = starts := by
  cases delimiter with
  | opening => cases h
  | closing name span =>
      cases starts with
      | nil => rfl
      | cons start outer =>
          rw [mismatch?] at h
          split at h
          · cases h
          · rename_i hname
            rw [next, if_neg hname]

theorem exists_of_closing {name : String} {span : Span}
    (h : mismatch? starts (closing name span) = none) :
    ∃ openedAt outer, starts = ⟨name, openedAt⟩ :: outer ∧
      next starts (closing name span) = outer := by
  cases starts with
  | nil => cases h
  | cons start outer =>
      rw [mismatch?] at h
      split at h
      · rename_i hname
        subst hname
        exact ⟨start.span, outer, rfl, by rw [next, if_pos rfl]⟩
      · cases h

theorem exists_mismatch {issue : Issue} {name : String} {span : Span}
    (h : mismatch? starts (closing name span) = some issue) :
    ∃ active, issue = .mismatch active name span := by
  cases starts with
  | nil => exact ⟨none, (Option.some.inj h).symm⟩
  | cons start outer =>
      rw [mismatch?] at h
      split at h
      · cases h
      · exact ⟨some start.name, (Option.some.inj h).symm⟩

theorem pending_cons (starts : List Start) (delimiter : Delimiter)
    (delimiters : List Delimiter) :
    pending starts (delimiter :: delimiters) = pending (next starts delimiter) delimiters := rfl

theorem isNesting_of_mem_mismatches {issue : Issue}
    (h : issue ∈ mismatches starts delimiters) :
    issue.isNesting = true ∧ issue.isUnclosed = false := by
  induction delimiters generalizing starts with
  | nil => cases h
  | cons delimiter delimiters ih =>
      rcases List.mem_append.mp h with hfirst | hrest
      · cases delimiter with
        | opening => cases hfirst
        | closing name span =>
            obtain ⟨active, rfl⟩ := exists_mismatch (Option.mem_toList.mp hfirst)
            exact ⟨rfl, rfl⟩
      · exact ih hrest

theorem accepted_of_mismatches_eq_nil (h : mismatches starts delimiters = []) :
    accepted starts delimiters = delimiters := by
  induction delimiters generalizing starts with
  | nil => rfl
  | cons delimiter delimiters ih =>
      obtain ⟨hfirst, hrest⟩ := List.append_eq_nil_iff.mp h
      rw [accepted, if_pos (Option.toList_eq_nil_iff.mp hfirst), ih hrest]

theorem countP_accepted (starts : List Start) (delimiters : List Delimiter) :
    starts.length + delimiters.countP isOpening =
      (accepted starts delimiters).countP isClosing + (pending starts delimiters).length := by
  induction delimiters generalizing starts with
  | nil => simp [accepted, pending]
  | cons delimiter delimiters ih =>
      have hrest := ih (next starts delimiter)
      rw [pending_cons, accepted]
      cases delimiter with
      | opening name span =>
          have hopened : mismatch? starts (opening name span) = none := rfl
          simp only [next, List.length_cons] at hrest
          rw [if_pos hopened, List.countP_cons_of_pos rfl,
            List.countP_cons_of_neg Bool.false_ne_true, next]
          omega
      | closing name span =>
          rw [List.countP_cons_of_neg Bool.false_ne_true]
          cases hissue : mismatch? starts (closing name span) with
          | none =>
              obtain ⟨openedAt, outer, rfl, hnext⟩ := exists_of_closing hissue
              rw [hnext] at hrest ⊢
              rw [if_pos rfl, List.countP_cons_of_pos rfl, List.length_cons]
              omega
          | some issue =>
              rw [next_of_mismatch? hissue] at hrest ⊢
              rw [if_neg (by simp)]
              exact hrest

theorem countP_isClosing (starts : List Start) (delimiters : List Delimiter) :
    delimiters.countP isClosing =
      (accepted starts delimiters).countP isClosing + (mismatches starts delimiters).length := by
  induction delimiters generalizing starts with
  | nil => rfl
  | cons delimiter delimiters ih =>
      rw [mismatches, accepted, List.length_append]
      cases delimiter with
      | opening name span =>
          have hopened : mismatch? starts (opening name span) = none := rfl
          rw [if_pos hopened, hopened, List.countP_cons_of_neg Bool.false_ne_true,
            List.countP_cons_of_neg Bool.false_ne_true, ih, Option.toList_none, List.length_nil,
            Nat.zero_add]
      | closing name span =>
          rw [List.countP_cons_of_pos rfl, ih (next starts (closing name span))]
          cases mismatch? starts (closing name span) with
          | none =>
              rw [if_pos rfl, List.countP_cons_of_pos rfl, Option.toList_none, List.length_nil]
              omega
          | some issue =>
              rw [if_neg (by simp), Option.toList_some, List.length_singleton]
              omega

theorem countP_isUnclosed (starts left : List Start) (delimiters : List Delimiter) :
    (mismatches starts delimiters ++ left.map Start.unclosed).countP Issue.isUnclosed =
        left.length ∧
      (mismatches starts delimiters ++ left.map Start.unclosed).countP
          (fun issue => !issue.isUnclosed) =
        (mismatches starts delimiters).length := by
  have hmismatches : ∀ issue ∈ mismatches starts delimiters, issue.isUnclosed = false :=
    fun issue hissue => (isNesting_of_mem_mismatches hissue).2
  have hunclosed : ∀ issue ∈ left.map Start.unclosed, issue.isUnclosed = true := by
    intro issue hissue
    obtain ⟨start, -, rfl⟩ := List.mem_map.mp hissue
    rfl
  rw [List.countP_append, List.countP_append]
  constructor
  · rw [List.countP_eq_zero.mpr (by simpa using hmismatches),
      List.countP_eq_length.mpr hunclosed, List.length_map, Nat.zero_add]
  · rw [List.countP_eq_length.mpr (by simpa using hmismatches),
      List.countP_eq_zero.mpr (by simpa using hunclosed), Nat.add_zero]

theorem Nested.append {first second : List Delimiter} (hfirst : Nested first)
    (hsecond : Nested second) : Nested (first ++ second) := by
  induction hfirst with
  | nil => exact hsecond
  | pair name openedAt closedAt hinner _ _ ihrest =>
      rw [List.cons_append, List.cons_append, List.append_assoc, List.cons_append]
      exact .pair name openedAt closedAt hinner ihrest

theorem Nested.run {word : List Delimiter} (h : Nested word) (starts : List Start)
    (rest : List Delimiter) :
    mismatches starts (word ++ rest) = mismatches starts rest ∧
      pending starts (word ++ rest) = pending starts rest := by
  induction h generalizing starts rest with
  | nil => exact ⟨rfl, rfl⟩
  | pair name openedAt closedAt _ _ ihinner ihrest =>
      rename_i inner after _ _
      obtain ⟨hissues, hpending⟩ :=
        ihinner (⟨name, openedAt⟩ :: starts) (closing name closedAt :: (after ++ rest))
      have hclosed : mismatch? (⟨name, openedAt⟩ :: starts) (closing name closedAt) = none := by
        rw [mismatch?, if_pos rfl]
      have hnext : next (⟨name, openedAt⟩ :: starts) (closing name closedAt) = starts := by
        rw [next, if_pos rfl]
      obtain ⟨hissues', hpending'⟩ := ihrest starts rest
      rw [List.cons_append, List.cons_append, List.append_assoc, List.cons_append, pending_cons,
        mismatches]
      constructor
      · change mismatches (⟨name, openedAt⟩ :: starts) _ = _
        rw [hissues, mismatches, hclosed, hnext, hissues']
        rfl
      · change pending (⟨name, openedAt⟩ :: starts) _ = _
        rw [hpending, pending_cons, hnext, hpending']

theorem Leaves.append {first second : List Delimiter} (h : Leaves starts first)
    (hsecond : Nested second) : Leaves starts (first ++ second) := by
  cases h with
  | nested hfirst => exact .nested (hfirst.append hsecond)
  | start start hbefore hafter =>
      rw [List.append_assoc, List.cons_append]
      exact .start start hbefore (hafter.append hsecond)

theorem Leaves.closing {start : Start} {before : List Delimiter}
    (h : Leaves (start :: starts) before) (span : Span) :
    Leaves starts (before ++ [closing start.name span]) := by
  cases h with
  | start _ hbefore hafter =>
      rw [List.append_assoc, List.cons_append]
      exact hbefore.append (.pair start.name start.span span hafter .nil)

/-- The delimiters that are accepted are in pairs but for the starts still open. -/
theorem leaves_accepted {before : List Delimiter} (h : Leaves starts before)
    (delimiters : List Delimiter) :
    Leaves (pending starts delimiters) (before ++ accepted starts delimiters) := by
  induction delimiters generalizing starts before with
  | nil =>
      rw [accepted, List.append_nil]
      exact h
  | cons delimiter delimiters ih =>
      rw [pending_cons, accepted]
      cases delimiter with
      | opening name span =>
          have hopened : mismatch? starts (.opening name span) = none := rfl
          rw [if_pos hopened, List.append_cons]
          exact ih (.start ⟨name, span⟩ h .nil)
      | closing name span =>
          cases hissue : mismatch? starts (.closing name span) with
          | none =>
              obtain ⟨openedAt, outer, rfl, hnext⟩ := exists_of_closing hissue
              rw [if_pos rfl, List.append_cons, hnext]
              exact ih (h.closing span)
          | some issue =>
              rw [if_neg (by simp), next_of_mismatch? hissue]
              exact ih h

theorem nested_iff (delimiters : List Delimiter) :
    Nested delimiters ↔ mismatches [] delimiters = [] ∧ pending [] delimiters = [] := by
  constructor
  · intro h
    have hrun := h.run [] []
    rwa [List.append_nil] at hrun
  · rintro ⟨hissues, hpending⟩
    have hleaves := leaves_accepted (.nested .nil) delimiters
    rw [accepted_of_mismatches_eq_nil hissues, hpending, List.nil_append] at hleaves
    cases hleaves with
    | nested h => exact h

end Delimiter

end StyleSplit
