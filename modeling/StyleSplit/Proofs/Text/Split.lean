import Mathlib
import StyleSplit.Text.Split

/-! Where texts that are joined with separators come apart. -/

namespace StyleSplit.Text

theorem exists_splitOn (separator : Char) (text : List Char) :
    ∃ part parts, splitOn separator text = part :: parts := by
  cases text with
  | nil => exact ⟨[], [], rfl⟩
  | cons c text =>
      rw [splitOn]
      split
      · exact ⟨_, _, rfl⟩
      · split <;> exact ⟨_, _, rfl⟩

theorem splitOn_separator (separator : Char) (text : List Char) :
    splitOn separator (separator :: text) = [] :: splitOn separator text := by
  rw [splitOn]
  simp

theorem splitOn_eq_nil_iff (separator : Char) (text : List Char) :
    splitOn separator text = [[]] ↔ text = [] := by
  constructor
  · intro h
    cases text with
    | nil => rfl
    | cons c text =>
        obtain ⟨part, parts, hparts⟩ := exists_splitOn separator text
        rw [splitOn, hparts] at h
        split at h <;> simp at h
  · rintro rfl
    rfl

theorem splitOn_append {separator : Char} {first : List Char} (hfirst : separator ∉ first)
    (text : List Char) :
    splitOn separator (first ++ text) = (splitOn separator text).modifyHead (first ++ ·) := by
  induction first with
  | nil =>
      obtain ⟨part, parts, hparts⟩ := exists_splitOn separator text
      simp [hparts]
  | cons c first ih =>
      rw [List.mem_cons, not_or] at hfirst
      obtain ⟨part, parts, hparts⟩ := exists_splitOn separator text
      have hrest := ih hfirst.2
      rw [hparts, List.modifyHead_cons] at hrest
      rw [List.cons_append, splitOn, hrest, if_neg (Ne.symm hfirst.1), hparts]
      rfl

theorem exists_splitOn_append {separator : Char} {last : List Char} (hlast : separator ∉ last)
    (text : List Char) :
    ∃ parts part, splitOn separator text = parts ++ [part] ∧
      splitOn separator (text ++ last) = parts ++ [part ++ last] := by
  induction text with
  | nil =>
      have hparts := splitOn_append hlast []
      rw [List.append_nil] at hparts
      exact ⟨[], [], rfl, hparts.trans (by simp [splitOn])⟩
  | cons c text ih =>
      obtain ⟨parts, part, htext, hboth⟩ := ih
      rw [List.cons_append, splitOn, splitOn, htext, hboth]
      split
      · exact ⟨[] :: parts, part, rfl, rfl⟩
      · cases parts with
        | nil => exact ⟨[], c :: part, rfl, rfl⟩
        | cons first parts => exact ⟨(c :: first) :: parts, part, rfl, rfl⟩

theorem getElem?_zero_splitOn (separator : Char) (text : List Char) :
    (splitOn separator text)[0]? = some (text.takeWhile (· ≠ separator)) := by
  induction text with
  | nil => rfl
  | cons c text ih =>
      obtain ⟨part, parts, hparts⟩ := exists_splitOn separator text
      rw [hparts] at ih
      rw [splitOn, hparts]
      by_cases hc : c = separator
      · simp [hc]
      · have hpart : part = text.takeWhile (· ≠ separator) := Option.some.inj ih
        simp [hc, hpart]

theorem exists_append_afterLast (separator : Char) (text : List Char) :
    ∃ first, text = first ++ afterLast separator text := by
  refine ⟨(text.reverse.dropWhile (· ≠ separator)).reverse, ?_⟩
  rw [afterLast, ← List.reverse_append, List.takeWhile_append_dropWhile, List.reverse_reverse]

theorem not_mem_afterLast (separator : Char) (text : List Char) :
    separator ∉ afterLast separator text := by
  rw [afterLast, List.mem_reverse]
  intro hmem
  simpa using List.mem_takeWhile_imp hmem

theorem afterLast_of_not_mem {separator : Char} {text : List Char} (h : separator ∉ text) :
    afterLast separator text = text := by
  have hall : ∀ c ∈ text.reverse, decide (c ≠ separator) = true := by
    intro c hc
    rw [decide_eq_true_iff]
    rintro rfl
    exact h (List.mem_reverse.mp hc)
  rw [afterLast, List.takeWhile_eq_self_iff.mpr hall, List.reverse_reverse]

theorem afterLast_append_separator {separator : Char} (first rest : List Char) :
    afterLast separator (first ++ separator :: rest) = afterLast separator rest := by
  have hreverse : (first ++ separator :: rest).reverse =
      rest.reverse ++ separator :: first.reverse := by simp
  rw [afterLast, afterLast, hreverse, List.takeWhile_append]
  split
  · rename_i hall
    rw [List.takeWhile_cons_of_neg (by simp), List.append_nil,
      (List.takeWhile_prefix _).eq_of_length hall]
  · rfl

theorem exists_afterLast {separator : Char} {text : List Char} (h : separator ∈ text) :
    ∃ first, text = first ++ separator :: afterLast separator text := by
  obtain ⟨rest, first, hreverse, hrest⟩ :=
    List.eq_append_cons_of_mem (List.mem_reverse.mpr h)
  have htext : text = first.reverse ++ separator :: rest.reverse := by
    rw [← List.reverse_reverse text, hreverse]
    simp
  refine ⟨first.reverse, ?_⟩
  rw [htext, afterLast_append_separator,
    afterLast_of_not_mem (fun hmem => hrest (List.mem_reverse.mp hmem))]

end StyleSplit.Text
