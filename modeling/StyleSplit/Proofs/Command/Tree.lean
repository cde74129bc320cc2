import StyleSplit.Command.Tree
import StyleSplit.Proofs.Text.Split
import StyleSplit.Proofs.Written

/-! Paths in a tree while files are written and directories are made: what could be followed
once leads to the same place ever after. -/

namespace StyleSplit

namespace Place

def origin : List (List Char) → Place × List (List Char)
  | [] :: parts => (⟨.root, []⟩, parts)
  | parts => ({}, parts)

/-- The place that a path leads to in every tree where it can be followed. -/
def ofPath (path : String) : Place :=
  let way := origin (Text.splitOn '/' path.toList)
  way.2.foldl step way.1

theorem exists_origin {parts : List (List Char)} {part other : List Char}
    (hpart : parts ++ [part] ≠ [[]]) (hother : parts ++ [other] ≠ [[]]) :
    ∃ base before, origin (parts ++ [part]) = (base, before ++ [part]) ∧
      origin (parts ++ [other]) = (base, before ++ [other]) := by
  cases parts with
  | nil =>
      refine ⟨{}, [], ?_, ?_⟩
      · cases part with
        | nil => exact absurd rfl hpart
        | cons c part => rfl
      · cases other with
        | nil => exact absurd rfl hother
        | cons c other => rfl
  | cons first parts =>
      cases first with
      | nil => exact ⟨_, parts, rfl, rfl⟩
      | cons c first => exact ⟨_, (c :: first) :: parts, rfl, rfl⟩

end Place

namespace Tree

variable {tree later : Tree} {place last : Place} {parts : List (List Char)}

theorem walk_append (tree : Tree) (place : Place) (first second : List (List Char)) :
    tree.walk place (first ++ second) = (tree.walk place first).bind (tree.walk · second) := by
  induction first generalizing place with
  | nil => rfl
  | cons part first ih =>
      rw [List.cons_append, walk, walk]
      repeat' split
      · exact ih _
      all_goals rfl

theorem eq_foldl_of_walk (h : tree.walk place parts = .ok last) :
    last = parts.foldl Place.step place := by
  induction parts generalizing place with
  | nil => exact (Except.ok.inj h).symm
  | cons part parts ih =>
      rw [walk] at h
      split at h
      · split at h
        · exact ih h
        · cases h
      · split at h <;> cases h

theorem isFolder_mono (hfolders : tree.folders ⊆ later.folders)
    (h : tree.isFolder place = true) : later.isFolder place = true := by
  rw [isFolder, Bool.or_eq_true, List.contains_iff_mem] at h ⊢
  exact h.imp_right (hfolders ·)

theorem walk_mono (hfolders : tree.folders ⊆ later.folders)
    (h : tree.walk place parts = .ok last) : later.walk place parts = .ok last := by
  induction parts generalizing place with
  | nil => exact h
  | cons part parts ih =>
      rw [walk] at h ⊢
      split at h
      · rename_i hfolder
        rw [if_pos (isFolder_mono hfolders hfolder)]
        split at h
        · rename_i hlength
          rw [if_pos hlength]
          exact ih h
        · cases h
      · split at h <;> cases h

theorem isFolder_of_walk {part : List Char} (h : tree.walk place (parts ++ [part]) = .ok last) :
    ∃ folder, tree.walk place parts = .ok folder ∧ tree.isFolder folder = true := by
  rw [walk_append] at h
  cases hfolder : tree.walk place parts with
  | error fault =>
      rw [hfolder] at h
      cases h
  | ok folder =>
      rw [hfolder] at h
      refine ⟨folder, rfl, ?_⟩
      change tree.walk folder [part] = .ok last at h
      rw [walk] at h
      split at h
      · assumption
      · split at h <;> cases h

theorem walk_of_isFolder {folder : Place} (hwalk : tree.walk place parts = .ok folder)
    (hfolder : tree.isFolder folder = true) (part : List Char) :
    tree.walk place (parts ++ [part]) =
      if Text.byteLength part ≤ nameLimit then .ok (folder.step part) else .error .nameTooLong := by
  rw [walk_append, hwalk]
  exact if_pos hfolder

/-- Where one name can be looked up, any other can be, and directories that are made later
change nothing there. -/
theorem walk_sibling (hfolders : tree.folders ⊆ later.folders) {part : List Char}
    (h : tree.walk place (parts ++ [part]) = .ok last) (other : List Char) :
    later.walk place (parts ++ [other]) = tree.walk place (parts ++ [other]) := by
  obtain ⟨folder, hwalk, hfolder⟩ := isFolder_of_walk h
  rw [walk_of_isFolder hwalk hfolder,
    walk_of_isFolder (walk_mono hfolders hwalk) (isFolder_mono hfolders hfolder)]

theorem locate_eq (tree : Tree) (path : String) :
    tree.locate path =
      if path.toList.contains '\x00' then .error .nulInPath
      else if pathLimit < path.utf8ByteSize then .error .nameTooLong
      else if path.toList = [] then .error .notFound
      else
        let way := Place.origin (Text.splitOn '/' path.toList)
        tree.walk way.1 way.2 := by
  rw [locate]
  congr 2
  obtain ⟨part, parts, hparts⟩ := Text.exists_splitOn '/' path.toList
  have hempty := Text.splitOn_eq_nil_iff '/' path.toList
  rw [hparts] at hempty ⊢
  cases part with
  | cons c part => exact (if_neg fun hnil => by simpa using hempty.mpr hnil).symm
  | nil =>
      cases parts with
      | nil => exact (if_pos (hempty.mp rfl)).symm
      | cons second parts => exact (if_neg fun hnil => by simpa using hempty.mpr hnil).symm

theorem locate_eq_ok_iff {path : String} :
    tree.locate path = .ok place ↔
      (path.toList.contains '\x00' = false ∧ path.utf8ByteSize ≤ pathLimit ∧
        path.toList ≠ []) ∧
      tree.walk (Place.origin (Text.splitOn '/' path.toList)).1
        (Place.origin (Text.splitOn '/' path.toList)).2 = .ok place := by
  rw [locate_eq]
  constructor
  · intro h
    repeat' split at h
    all_goals first | cases h | skip
    rename_i hnul hlength hempty
    exact ⟨⟨by simpa using hnul, Nat.le_of_not_lt hlength, hempty⟩, h⟩
  · rintro ⟨⟨hnul, hlength, hempty⟩, h⟩
    rw [if_neg (by rw [hnul]; exact Bool.false_ne_true), if_neg (Nat.not_lt.mpr hlength),
      if_neg hempty]
    exact h

theorem eq_ofPath_of_locate {path : String} (h : tree.locate path = .ok place) :
    place = .ofPath path :=
  eq_foldl_of_walk (locate_eq_ok_iff.mp h).2

theorem locate_mono (hfolders : tree.folders ⊆ later.folders) {path : String}
    (h : tree.locate path = .ok place) : later.locate path = .ok place := by
  rw [locate_eq_ok_iff] at h ⊢
  exact h.imp_right (walk_mono hfolders)

theorem locate_append (hfolders : tree.folders ⊆ later.folders) {path : String}
    (h : tree.locate path = .ok place) {ending : String} (hending : '/' ∉ ending.toList) :
    later.locate (path ++ ending) = tree.locate (path ++ ending) := by
  obtain ⟨⟨-, -, hempty⟩, hwalk⟩ := locate_eq_ok_iff.mp h
  obtain ⟨parts, part, hparts, hboth⟩ := Text.exists_splitOn_append hending path.toList
  have hboth' : Text.splitOn '/' (path ++ ending).toList = parts ++ [part ++ ending.toList] := by
    rw [String.toList_append, hboth]
  have hempty' : (path ++ ending).toList ≠ [] := by
    rw [String.toList_append]
    exact List.append_ne_nil_of_left_ne_nil hempty _
  obtain ⟨base, before, horigin, horigin'⟩ := Place.exists_origin
    (fun hnil => hempty ((Text.splitOn_eq_nil_iff ..).mp (hparts.trans hnil)))
    (fun hnil => hempty' ((Text.splitOn_eq_nil_iff ..).mp (hboth'.trans hnil)))
  rw [hparts, horigin] at hwalk
  rw [locate_eq, locate_eq, hboth', horigin']
  congr 3
  exact walk_sibling hfolders hwalk _

end Tree

end StyleSplit
