import Mathlib
import StyleSplit.Search

/-! Where binary search ends. -/

namespace StyleSplit

/-- The search stays around the point where `p` ends, and closes in on it. -/
theorem partitionPoint.search_eq {elements : Array α} {p : α → Bool} {point : Nat}
    (hbefore : ∀ i, (h : i < elements.size) → i < point → p elements[i] = true)
    (hafter : ∀ i, (h : i < elements.size) → point ≤ i → p elements[i] = false)
    {low high : Nat} (hlow : low ≤ point) (hhigh : point ≤ high)
    (hsize : high ≤ elements.size) :
    partitionPoint.search elements p low high = point := by
  fun_induction partitionPoint.search elements p low high with
  | case1 low high hlt middle x hx hp ih =>
      obtain ⟨hmiddle, rfl⟩ := Array.getElem?_eq_some_iff.mp hx
      apply ih _ hhigh hsize
      by_contra hgt
      rw [hafter middle hmiddle (by omega)] at hp
      contradiction
  | case2 low high hlt middle x hx hp ih =>
      obtain ⟨hmiddle, rfl⟩ := Array.getElem?_eq_some_iff.mp hx
      apply ih hlow _ (by omega)
      by_contra hgt
      exact hp (hbefore middle hmiddle (by omega))
  | case3 low high hlt middle hx =>
      rw [Array.getElem?_eq_none_iff] at hx
      omega
  | case4 => omega

theorem partitionPoint_append {first second : List α} {p : α → Bool}
    (hfirst : ∀ x ∈ first, p x = true) (hsecond : ∀ x ∈ second, p x = false) :
    partitionPoint (first ++ second).toArray p = first.length := by
  apply partitionPoint.search_eq
  · intro i h hi
    rw [List.getElem_toArray, List.getElem_append_left hi]
    exact hfirst _ (List.getElem_mem hi)
  · intro i h hi
    rw [List.getElem_toArray, List.getElem_append_right hi]
    exact hsecond _ (List.getElem_mem _)
  · exact Nat.zero_le _
  · simp
  · exact Nat.le_refl _

theorem eq_filter_append_filter {elements : List α} {p : α → Bool}
    (hordered : elements.Pairwise fun first second => p second = true → p first = true) :
    elements = elements.filter p ++ elements.filter fun x => !p x := by
  induction elements with
  | nil => rfl
  | cons x elements ih =>
      obtain ⟨hx, hrest⟩ := List.pairwise_cons.mp hordered
      cases hp : p x with
      | true =>
          rw [List.filter_cons_of_pos hp, List.filter_cons_of_neg (by simp [hp]),
            List.cons_append, ← ih hrest]
      | false =>
          have hnone : elements.filter p = [] := by
            rw [List.filter_eq_nil_iff]
            intro y hy hpy
            rw [hx y hy hpy] at hp
            contradiction
          rw [List.filter_cons_of_neg (by simp [hp]), List.filter_cons_of_pos (by simp [hp]),
            hnone, List.nil_append, List.filter_eq_self.mpr]
          intro y hy
          simpa using List.filter_eq_nil_iff.mp hnone y hy

theorem partitionPoint_eq_length_filter {elements : List α} {p : α → Bool}
    (hordered : elements.Pairwise fun first second => p second = true → p first = true) :
    partitionPoint elements.toArray p = (elements.filter p).length := by
  conv_lhs => rw [eq_filter_append_filter hordered]
  apply partitionPoint_append
  · intro x hx
    exact (List.mem_filter.mp hx).2
  · intro x hx
    simpa using (List.mem_filter.mp hx).2

theorem getElem?_of_length_filter {elements : List α} {p : α → Bool} {count : Nat}
    (hordered : elements.Pairwise fun first second => p second = true → p first = true)
    (hcount : (elements.filter p).length = count + 1) :
    elements[count]? = (elements.filter p).getLast? := by
  conv_lhs => rw [eq_filter_append_filter hordered]
  rw [List.getElem?_append_left (by omega), List.getLast?_eq_getElem?, hcount,
    Nat.add_sub_cancel]

theorem partitionPoint_bounds {elements : Array α} {p : α → Bool}
    (hordered : elements.toList.Pairwise fun first second =>
      p second = true → p first = true) :
    (∀ count, partitionPoint elements p = count + 1 →
      ∃ x, elements[count]? = some x ∧ p x = true) ∧
      ∀ x, elements[partitionPoint elements p]? = some x → p x = false := by
  have hpoint := partitionPoint_eq_length_filter hordered
  rw [Array.toArray_toList] at hpoint
  constructor
  · intro count hcount
    rw [hpoint] at hcount
    have hlast := getElem?_of_length_filter hordered hcount
    obtain ⟨x, hx⟩ : ∃ x, (elements.toList.filter p).getLast? = some x := by
      rw [← Option.isSome_iff_exists, List.getLast?_isSome]
      intro hnil
      rw [hnil, List.length_nil] at hcount
      omega
    rw [Array.getElem?_toList, hx] at hlast
    exact ⟨x, hlast, (List.mem_filter.mp (List.mem_of_getLast? hx)).2⟩
  · intro x hx
    rw [hpoint, ← Array.getElem?_toList, eq_filter_append_filter hordered,
      List.getElem?_append_right (by simp)] at hx
    simpa using (List.mem_filter.mp (List.mem_of_getElem? hx)).2

end StyleSplit
