import StyleSplit.Proofs.Text.Split
import StyleSplit.Text.Replace

/-! What a text is after the occurrences of a pattern have been replaced. -/

namespace StyleSplit.Text

variable {pattern replacement mark text : List Char}

theorem after?_eq_some_iff {rest : List Char} :
    after? mark text = some rest ↔ text = mark ++ rest := by
  fun_induction after? mark text with
  | case1 text => simp
  | case2 m mark => simp
  | case3 m mark text ih => simpa using ih
  | case4 m mark c text hne => simp [Ne.symm hne]

theorem after?_append (mark rest : List Char) : after? mark (mark ++ rest) = some rest :=
  after?_eq_some_iff.mpr rfl

theorem startsWith_iff : startsWith mark text = true ↔ ∃ rest, text = mark ++ rest := by
  rw [startsWith, Option.isSome_iff_exists]
  simp only [after?_eq_some_iff]

theorem contains_append (first pattern rest : List Char) :
    contains pattern (first ++ pattern ++ rest) = true := by
  have hhere (text : List Char) : contains text (text ++ rest) = true := by
    cases text <;> cases rest <;> simp [contains, startsWith_iff]
  induction first with
  | nil => exact hhere pattern
  | cons c first ih =>
      rw [List.cons_append, List.cons_append, contains, ih, Bool.or_true]

theorem replaceFrom_eq_drop (pattern replacement : List Char) (skipped : Nat)
    (text : List Char) :
    replaceFrom pattern replacement skipped text =
      replaceAll pattern replacement (text.drop skipped) := by
  induction skipped generalizing text with
  | zero => rfl
  | succ skipped ih =>
      cases text with
      | nil => simp [replaceAll, replaceFrom]
      | cons c text =>
          rw [replaceFrom, ih]
          rfl

theorem replaceAll_nil (pattern replacement : List Char) :
    replaceAll pattern replacement [] = [] := by
  rw [replaceAll, replaceFrom]

theorem replaceAll_pattern_append (hpattern : pattern ≠ []) (replacement rest : List Char) :
    replaceAll pattern replacement (pattern ++ rest) =
      replacement ++ replaceAll pattern replacement rest := by
  obtain ⟨c, tail, rfl⟩ := List.exists_cons_of_ne_nil hpattern
  have hstarts : startsWith (c :: tail) (c :: tail ++ rest) = true :=
    startsWith_iff.mpr ⟨rest, rfl⟩
  rw [List.cons_append] at hstarts ⊢
  rw [replaceAll, replaceFrom, if_pos hstarts, replaceFrom_eq_drop, List.length_cons,
    Nat.add_sub_cancel, List.drop_left]

theorem replaceAll_cons {c : Char} (h : startsWith pattern (c :: text) = false)
    (replacement : List Char) :
    replaceAll pattern replacement (c :: text) =
      c :: replaceAll pattern replacement text := by
  rw [replaceAll, replaceFrom, if_neg (by rw [h]; decide)]
  rfl

theorem startsWith_eq_false_of_head? {c : Char} (h : pattern.head? ≠ some c)
    (hpattern : pattern ≠ []) (text : List Char) : startsWith pattern (c :: text) = false := by
  obtain ⟨d, tail, rfl⟩ := List.exists_cons_of_ne_nil hpattern
  rw [Bool.eq_false_iff, Ne, startsWith_iff]
  rintro ⟨rest, hrest⟩
  obtain ⟨rfl, -⟩ := List.cons.inj hrest
  exact h rfl

theorem replaceAll_append_of_forall_ne {first : List Char} (hpattern : pattern ≠ [])
    (hfirst : ∀ c ∈ first, pattern.head? ≠ some c) (replacement rest : List Char) :
    replaceAll pattern replacement (first ++ rest) =
      first ++ replaceAll pattern replacement rest := by
  induction first with
  | nil => rfl
  | cons c first ih =>
      obtain ⟨hc, hfirst⟩ := List.forall_mem_cons.mp hfirst
      rw [List.cons_append, replaceAll_cons (startsWith_eq_false_of_head? hc hpattern _),
        ih hfirst]
      rfl

theorem contains_append_of_forall_ne {first : List Char} (hpattern : pattern ≠ [])
    (hfirst : ∀ c ∈ first, pattern.head? ≠ some c) (rest : List Char) :
    contains pattern (first ++ rest) = contains pattern rest := by
  induction first with
  | nil => rfl
  | cons c first ih =>
      obtain ⟨hc, hfirst⟩ := List.forall_mem_cons.mp hfirst
      rw [List.cons_append, contains, startsWith_eq_false_of_head? hc hpattern, Bool.false_or,
        ih hfirst]

theorem replaceAll_flatMap {α : Type} {pieces : List α} {written replaced : α → List Char}
    (h : ∀ piece ∈ pieces, ∀ rest, replaceAll pattern replacement (written piece ++ rest) =
      replaced piece ++ replaceAll pattern replacement rest) (rest : List Char) :
    replaceAll pattern replacement (pieces.flatMap written ++ rest) =
      pieces.flatMap replaced ++ replaceAll pattern replacement rest := by
  induction pieces with
  | nil => rfl
  | cons piece pieces ih =>
      obtain ⟨hpiece, hpieces⟩ := List.forall_mem_cons.mp h
      rw [List.flatMap_cons, List.flatMap_cons, List.append_assoc, List.append_assoc, hpiece,
        ih hpieces]

theorem mem_replaceAll {c : Char} (h : c ∈ replaceAll pattern replacement text) :
    c ∈ replacement ∨ c ∈ text := by
  rw [replaceAll] at h
  generalize 0 = skipped at h
  fun_induction replaceFrom pattern replacement skipped text with
  | case1 => exact .inr h
  | case2 skipped d text ih => exact (ih h).imp_right (List.mem_cons_of_mem d)
  | case3 d text hstarts ih =>
      rcases List.mem_append.mp h with hhere | hthere
      · exact .inl hhere
      · exact (ih hthere).imp_right (List.mem_cons_of_mem d)
  | case4 d text hstarts ih =>
      rcases List.mem_cons.mp h with rfl | hthere
      · exact .inr List.mem_cons_self
      · exact (ih hthere).imp_right (List.mem_cons_of_mem d)

theorem startsWith_append_cons {separator : Char} (hseparator : separator ∉ pattern)
    (first rest : List Char) :
    startsWith pattern (first ++ separator :: rest) = startsWith pattern first := by
  rw [Bool.eq_iff_iff, startsWith_iff, startsWith_iff]
  constructor
  · rintro ⟨more, hmore⟩
    rcases List.append_eq_append_iff.mp hmore with ⟨cut, hcut, hrest⟩ | ⟨cut, hcut, -⟩
    · cases cut with
      | nil => exact ⟨[], by rw [hcut, List.append_assoc]; simp⟩
      | cons c cut =>
          obtain ⟨rfl, -⟩ := List.cons.inj hrest
          exact absurd (by rw [hcut]; simp) hseparator
    · exact ⟨cut, hcut⟩
  · rintro ⟨more, rfl⟩
    exact ⟨more ++ separator :: rest, List.append_assoc ..⟩

/-- No occurrence of a pattern goes over a character that is not in it. -/
theorem replaceAll_append_cons {separator : Char} (hseparator : separator ∉ pattern)
    (hpattern : pattern ≠ []) (replacement first rest : List Char) :
    replaceAll pattern replacement (first ++ separator :: rest) =
      replaceAll pattern replacement first ++
        separator :: replaceAll pattern replacement rest := by
  -- By length: an occurrence is as long as the pattern.
  induction hlength : first.length using Nat.strongRecOn generalizing first with
  | ind length ih =>
      subst hlength
      have hstarts := startsWith_append_cons hseparator first rest
      cases first with
      | nil =>
          rw [List.nil_append] at hstarts ⊢
          have hnil : startsWith pattern [] = false := by
            obtain ⟨c, tail, rfl⟩ := List.exists_cons_of_ne_nil hpattern
            rfl
          rw [replaceAll_cons (hstarts.trans hnil)]
          rfl
      | cons c first =>
          cases hhere : startsWith pattern (c :: first) with
          | true =>
              obtain ⟨more, hmore⟩ := startsWith_iff.mp hhere
              have hshorter : more.length < (c :: first).length := by
                rw [hmore, List.length_append]
                exact Nat.lt_add_of_pos_left (List.length_pos_of_ne_nil hpattern)
              rw [hmore, List.append_assoc, replaceAll_pattern_append hpattern,
                replaceAll_pattern_append hpattern, ih _ hshorter more rfl, List.append_assoc]
          | false =>
              rw [hhere, List.cons_append] at hstarts
              rw [List.cons_append, replaceAll_cons hstarts, replaceAll_cons hhere,
                ih _ (Nat.lt_succ_self _) first rfl]
              rfl

theorem afterLast_replaceAll {separator : Char} (hpattern : pattern ≠ [])
    (hseparator : separator ∉ pattern) (hreplacement : separator ∉ replacement)
    (text : List Char) :
    afterLast separator (replaceAll pattern replacement text) =
      replaceAll pattern replacement (afterLast separator text) := by
  have hlast : separator ∉ replaceAll pattern replacement (afterLast separator text) := by
    intro hmem
    rcases mem_replaceAll hmem with hhere | hthere
    · exact hreplacement hhere
    · exact not_mem_afterLast separator text hthere
  by_cases hmem : separator ∈ text
  · obtain ⟨first, htext⟩ := exists_afterLast hmem
    conv_lhs => rw [htext]
    rw [replaceAll_append_cons hseparator hpattern, afterLast_append_separator,
      afterLast_of_not_mem hlast]
  · rw [afterLast_of_not_mem hmem] at hlast ⊢
    exact afterLast_of_not_mem hlast

theorem dropEnd_append (mark text : List Char) : dropEnd mark (text ++ mark) = text := by
  rw [dropEnd, List.reverse_append, after?_append]
  exact List.reverse_reverse text

end StyleSplit.Text
