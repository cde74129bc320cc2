import StyleSplit.Proofs.Position.After
import StyleSplit.SourceMap.Builder

/-! The order in which a builder writes its entries. -/

namespace StyleSplit

section Repetitions

variable {α : Type} [DecidableEq α]

theorem eraseRepsBy_loop (first : α) (elements kept : List α) :
    List.eraseRepsBy.loop (· == ·) first elements kept =
      kept.reverse ++ List.eraseRepsBy.loop (· == ·) first elements [] := by
  induction elements generalizing first kept with
  | nil => simp [List.eraseRepsBy.loop]
  | cons second elements ih =>
      rw [List.eraseRepsBy.loop, List.eraseRepsBy.loop]
      split
      · exact ih first kept
      · rw [ih second (first :: kept), ih second [first]]
        simp

theorem eraseReps_cons_cons (first second : α) (elements : List α) :
    (first :: second :: elements).eraseReps =
      if first = second then (second :: elements).eraseReps
      else first :: (second :: elements).eraseReps := by
  change List.eraseRepsBy.loop (· == ·) first (second :: elements) [] = _
  rw [List.eraseRepsBy.loop]
  by_cases heq : first = second
  · subst heq
    simp only [beq_self_eq_true, if_true]
    rfl
  · simp only [beq_eq_false_iff_ne.mpr heq, if_neg heq]
    exact eraseRepsBy_loop second elements [first]

theorem eraseReps_sublist (elements : List α) : elements.eraseReps.Sublist elements := by
  induction elements with
  | nil => exact List.Sublist.refl []
  | cons first elements ih =>
      cases elements with
      | nil => exact List.Sublist.refl [first]
      | cons second elements =>
          rw [eraseReps_cons_cons]
          split
          · exact ih.cons first
          · exact ih.cons_cons first

theorem eraseReps_of_nodup {elements : List α} (hnodup : elements.Nodup) :
    elements.eraseReps = elements := by
  induction elements with
  | nil => rfl
  | cons first elements ih =>
      obtain ⟨hfirst, hrest⟩ := List.nodup_cons.mp hnodup
      cases elements with
      | nil => rfl
      | cons second elements =>
          have hne : first ≠ second := fun heq => hfirst (heq ▸ List.mem_cons_self ..)
          rw [eraseReps_cons_cons, if_neg hne, ih hrest]

theorem mem_eraseReps {element : α} {elements : List α} :
    element ∈ elements.eraseReps ↔ element ∈ elements := by
  induction elements with
  | nil => rfl
  | cons first elements ih =>
      cases elements with
      | nil => rfl
      | cons second elements =>
          rw [eraseReps_cons_cons]
          split
          · rename_i heq
            rw [ih, heq]
            simp
          · rw [List.mem_cons, ih, List.mem_cons, List.mem_cons, List.mem_cons]

theorem nodup_eraseReps {le : α → α → Prop}
    (hantisymm : ∀ {first second}, le first second → le second first → first = second)
    {elements : List α} (hsorted : elements.Pairwise le) : elements.eraseReps.Nodup := by
  induction elements with
  | nil => exact List.nodup_nil
  | cons first elements ih =>
      obtain ⟨hfirst, hrest⟩ := List.pairwise_cons.mp hsorted
      cases elements with
      | nil => exact List.nodup_singleton first
      | cons second elements =>
          rw [eraseReps_cons_cons]
          split
          · exact ih hrest
          · rename_i hne
            refine List.nodup_cons.mpr ⟨?_, ih hrest⟩
            rw [mem_eraseReps, List.mem_cons]
            rintro (heq | hlater)
            · exact hne heq
            · have hsecond := (List.pairwise_cons.mp hrest).1 first hlater
              exact hne (hantisymm (hfirst second List.mem_cons_self) hsecond)

end Repetitions

namespace Position

theorem le_iff {first second : Position} :
    first.le second = true ↔
      first.line.toNat < second.line.toNat ∨
        (first.line.toNat = second.line.toNat ∧
          first.column.toNat ≤ second.column.toNat) := by
  simp only [Position.le, Bool.or_eq_true, Bool.and_eq_true, decide_eq_true_iff, beq_iff_eq,
    UInt32.lt_iff_toNat_lt, UInt32.le_iff_toNat_le, UInt32.toNat_inj]

theorem eq_iff {first second : Position} :
    first = second ↔
      first.line.toNat = second.line.toNat ∧ first.column.toNat = second.column.toNat := by
  rw [UInt32.toNat_inj, UInt32.toNat_inj]
  constructor
  · rintro rfl
    exact ⟨rfl, rfl⟩
  · obtain ⟨line, column⟩ := first
    rintro ⟨rfl, rfl⟩
    rfl

end Position

namespace MapBuilder

namespace Entry

theorem le_iff {first second : Entry} :
    first.le second = true ↔
      first.generated.line.toNat < second.generated.line.toNat ∨
        first.generated.line.toNat = second.generated.line.toNat ∧
          (first.generated.column.toNat < second.generated.column.toNat ∨
            first.generated.column.toNat = second.generated.column.toNat ∧
              (first.source < second.source ∨
                first.source = second.source ∧
                  (first.origin.line.toNat < second.origin.line.toNat ∨
                    first.origin.line.toNat = second.origin.line.toNat ∧
                      first.origin.column.toNat ≤ second.origin.column.toNat))) := by
  unfold Entry.le
  by_cases hgenerated : first.generated = second.generated
  · by_cases hsource : first.source = second.source
    · rw [if_pos hgenerated, if_pos hsource, Position.le_iff]
      rw [Position.eq_iff] at hgenerated
      omega
    · rw [if_pos hgenerated, if_neg hsource, decide_eq_true_iff]
      rw [Position.eq_iff] at hgenerated
      omega
  · rw [if_neg hgenerated, Position.le_iff]
    rw [Position.eq_iff] at hgenerated
    omega

theorem le_trans {first second third : Entry} (hfirst : first.le second = true)
    (hsecond : second.le third = true) : first.le third = true := by
  rw [le_iff] at *
  omega

theorem le_total (first second : Entry) : (first.le second || second.le first) = true := by
  rw [Bool.or_eq_true, le_iff, le_iff]
  omega

theorem le_antisymm {first second : Entry} (hfirst : first.le second = true)
    (hsecond : second.le first = true) : first = second := by
  rw [le_iff] at hfirst hsecond
  have hgenerated : first.generated = second.generated := by
    rw [Position.eq_iff]
    omega
  have hsource : first.source = second.source := by omega
  have horigin : first.origin = second.origin := by
    rw [Position.eq_iff]
    omega
  obtain ⟨generated, source, origin⟩ := first
  dsimp only at hgenerated hsource horigin
  rw [hgenerated, hsource, horigin]

theorem generated_le {first second : Entry} (h : first.le second = true) :
    first.generated.le second.generated = true := by
  rw [le_iff] at h
  rw [Position.le_iff]
  omega

theorem le_of_before {first second : Entry} (h : first.generated.Before second.generated) :
    first.le second = true := by
  simp only [Position.Before, UInt32.lt_iff_toNat_lt, ← UInt32.toNat_inj] at h
  rw [le_iff]
  omega

end Entry

variable {builder : MapBuilder}

theorem pairwise_mergeSort_entries (builder : MapBuilder) :
    (builder.entries.toList.mergeSort Entry.le).Pairwise fun first second =>
      first.le second = true := by
  have htrans : ∀ first second third : Entry,
      first.le second = true → second.le third = true → first.le third = true :=
    fun _ _ _ => Entry.le_trans
  exact List.pairwise_mergeSort htrans Entry.le_total _

theorem pairwise_sortedEntries (builder : MapBuilder) :
    builder.sortedEntries.Pairwise fun first second => first.le second = true :=
  (pairwise_mergeSort_entries builder).sublist (eraseReps_sublist _)

theorem nodup_sortedEntries (builder : MapBuilder) : builder.sortedEntries.Nodup :=
  nodup_eraseReps Entry.le_antisymm (pairwise_mergeSort_entries builder)

theorem mem_sortedEntries {entry : Entry} :
    entry ∈ builder.sortedEntries ↔ entry ∈ builder.entries := by
  rw [sortedEntries, mem_eraseReps, List.mem_mergeSort, Array.mem_toList_iff]

theorem sortedEntries_of_before
    (hordered : builder.entries.toList.Pairwise fun first second =>
      first.generated.Before second.generated) :
    builder.sortedEntries = builder.entries.toList := by
  have hsorted := hordered.imp fun hbefore => Entry.le_of_before hbefore
  rw [sortedEntries, List.mergeSort_of_pairwise hsorted, eraseReps_of_nodup]
  apply hordered.imp
  rintro first second hbefore rfl
  exact Position.Before.irrefl _ hbefore

end MapBuilder

end StyleSplit
