import Mathlib

/-! What is left of files that are written one after another. -/

namespace StyleSplit

variable {κ α : Type} [DecidableEq κ]

def written (files : κ → Option α) (writes : List (κ × α)) : κ → Option α :=
  writes.foldl (fun files write => Function.update files write.1 (some write.2)) files

theorem written_of_not_mem {key : κ} {writes : List (κ × α)}
    (h : ∀ write ∈ writes, write.1 ≠ key) (files : κ → Option α) :
    written files writes key = files key := by
  induction writes generalizing files with
  | nil => rfl
  | cons write writes ih =>
      obtain ⟨hne, hwrites⟩ := List.forall_mem_cons.mp h
      exact (ih hwrites _).trans (Function.update_of_ne hne.symm ..)

theorem written_append (files : κ → Option α) (first second : List (κ × α)) :
    written files (first ++ second) = written (written files first) second :=
  List.foldl_append

theorem written_of_last {key : κ} {later : List (κ × α)}
    (h : ∀ write ∈ later, write.1 ≠ key) (files : κ → Option α)
    (earlier : List (κ × α)) (contents : α) :
    written files (earlier ++ (key, contents) :: later) key = some contents := by
  rw [written_append]
  exact (written_of_not_mem h _).trans (Function.update_self ..)

theorem written_of_nodup {writes : List (κ × α)} (h : (writes.map Prod.fst).Nodup)
    (files : κ → Option α) {write : κ × α} (hwrite : write ∈ writes) :
    written files writes write.1 = some write.2 := by
  obtain ⟨earlier, later, rfl⟩ := List.append_of_mem hwrite
  rw [List.map_append, List.map_cons] at h
  have hlater := (List.nodup_cons.mp (List.nodup_append.mp h).2.1).1
  apply written_of_last
  intro other hother hsame
  exact hlater (List.mem_map.mpr ⟨other, hother, hsame⟩)

end StyleSplit
