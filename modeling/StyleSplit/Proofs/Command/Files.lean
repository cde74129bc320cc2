import StyleSplit.Command.Run
import StyleSplit.Proofs.Command.Tree
import StyleSplit.Proofs.SourceMap.Lines

/-! What the actions of a run leave of a tree. -/

namespace StyleSplit

theorem mapError_eq_ok {α : Type} {failure : FileFault → Failure}
    {result : Except FileFault α} {a : α} :
    result.mapError failure = .ok a ↔ result = .ok a := by
  cases result <;> simp [Except.mapError]

def Place.write (artifact : String × String) : Place × Contents :=
  (.ofPath artifact.1, .text artifact.2)

namespace Tree

variable {tree middle later : Tree} {place : Place} {path : String}
  {writes others : List (Place × Contents)}

/-- The later tree has these writes made in order, and maybe more directories. -/
structure Wrote (tree : Tree) (writes : List (Place × Contents)) (later : Tree) : Prop where
  files : later.file? = written tree.file? writes
  folders : tree.folders ⊆ later.folders

theorem Wrote.refl (tree : Tree) : tree.Wrote [] tree :=
  ⟨rfl, List.Subset.refl _⟩

theorem Wrote.trans (first : tree.Wrote writes middle) (second : middle.Wrote others later) :
    tree.Wrote (writes ++ others) later :=
  ⟨by rw [second.files, first.files, written_append],
    List.Subset.trans first.folders second.folders⟩

theorem Wrote.file? (h : tree.Wrote writes later) (hplace : ∀ write ∈ writes, write.1 ≠ place) :
    later.file? place = tree.file? place := by
  rw [h.files, written_of_not_mem hplace]

theorem read_eq_ok_iff {text : String} :
    tree.read path = .ok text ↔
      ∃ place, tree.locate path = .ok place ∧ tree.file? place = some (.text text) := by
  rw [read, bind_eq_ok]
  refine exists_congr fun place => and_congr_right fun _ => ?_
  split
  · rename_i value hfile
    rw [hfile]
    simp [pure, Except.pure]
  · rename_i bytes hfile
    rw [hfile]
    simp [throw, throwThe, MonadExceptOf.throw]
  · rename_i hfile
    rw [hfile]
    simp [throw, throwThe, MonadExceptOf.throw]

theorem Wrote.read {text : String} (h : tree.Wrote writes later)
    (hpath : ∀ write ∈ writes, write.1 ≠ .ofPath path) (hread : tree.read path = .ok text) :
    later.read path = .ok text := by
  rw [read_eq_ok_iff] at hread ⊢
  obtain ⟨place, hplace, hfile⟩ := hread
  have hsame := eq_ofPath_of_locate hplace
  refine ⟨place, locate_mono h.folders hplace, ?_⟩
  rw [h.file? (by rwa [hsame]), hfile]

/-- An action writes no file, and keeps the directories there are. -/
def Grows {α : Type} (action : StateM Tree α) : Prop :=
  ∀ tree : Tree, tree.Wrote [] (action.run tree).2

section Grows

variable {α β : Type}

theorem Grows.bind {action : StateM Tree α} {next : α → StateM Tree β} (h : Grows action)
    (hnext : ∀ a, Grows (next a)) : Grows (action >>= next) :=
  fun tree => (h tree).trans (hnext _ _)

end Grows

section Perform

variable {α β : Type}

def perform (tree : Tree) (action : ExceptT Failure (StateM Tree) α) :
    Except Failure α × Tree :=
  action.run.run tree

theorem perform_bind (tree : Tree) (action : ExceptT Failure (StateM Tree) α)
    (next : α → ExceptT Failure (StateM Tree) β) :
    tree.perform (action >>= next) = match tree.perform action with
      | (.ok a, middle) => middle.perform (next a)
      | (.error failure, middle) => (.error failure, middle) := by
  change (ExceptT.bindCont next (tree.perform action).1).run (tree.perform action).2 = _
  cases tree.perform action with
  | mk result middle => cases result <;> rfl

theorem perform_bind_eq_ok {action : ExceptT Failure (StateM Tree) α}
    {next : α → ExceptT Failure (StateM Tree) β} {b : β} :
    tree.perform (action >>= next) = (.ok b, later) ↔
      ∃ a middle, tree.perform action = (.ok a, middle) ∧
        middle.perform (next a) = (.ok b, later) := by
  rw [perform_bind]
  cases tree.perform action with
  | mk result middle => cases result <;> simp

theorem perform_pure_eq_ok {a b : α} :
    tree.perform (pure a) = (.ok b, later) ↔ a = b ∧ tree = later := by
  change (Except.ok a, tree) = (Except.ok b, later) ↔ _
  rw [Prod.mk.injEq, Except.ok.injEq]

theorem perform_attempt (tree : Tree) (action : StateM Tree (Except FileFault α))
    (failure : FileFault → Failure) :
    tree.perform (Job.attempt action failure) =
      ((action.run tree).1.mapError failure, (action.run tree).2) :=
  rfl

theorem perform_attempt_read {path text : String} {failure : FileFault → Failure} :
    tree.perform (Job.attempt (FileSystem.read path) failure) = (.ok text, later) ↔
      tree.read path = .ok text ∧ tree = later := by
  rw [perform_attempt, Prod.mk.injEq, mapError_eq_ok]
  rfl

def hasFile (tree : Tree) (path : String) : Bool :=
  tree.leads path fun place => (tree.file? place).isSome

theorem perform_isFile {path : String} {known : Bool} :
    tree.perform (liftM (FileSystem.isFile path : StateM Tree Bool)) = (.ok known, later) ↔
      tree.hasFile path = known ∧ tree = later := by
  change (Except.ok (tree.hasFile path), tree) = (Except.ok known, later) ↔ _
  rw [Prod.mk.injEq, Except.ok.injEq]

/-- The document that an input is, as it stands in a tree. -/
def document (tree : Tree) (input path : String) : Except Failure Document :=
  (tree.perform (Job.document input path)).1

theorem perform_document_eq_ok {input path : String} {document : Document} :
    tree.perform (Job.document input path) = (.ok document, later) ↔
      tree = later ∧ ∃ text, tree.read input = .ok text ∧
        if tree.hasFile (input ++ ".map") = true then
          ∃ map, tree.read (input ++ ".map") = .ok map ∧
            ({ path, text } : Document).withMapText map = document
        else ({ path, text } : Document) = document := by
  simp only [Job.document, perform_bind_eq_ok, perform_attempt_read, perform_isFile]
  constructor
  · rintro ⟨text, _, ⟨htext, rfl⟩, _, _, ⟨rfl, rfl⟩, h⟩
    split at h
    · rename_i hfile
      obtain ⟨map, _, hmap, hpure⟩ := perform_bind_eq_ok.mp h
      obtain ⟨hread, rfl⟩ := perform_attempt_read.mp hmap
      obtain ⟨hdocument, rfl⟩ := perform_pure_eq_ok.mp hpure
      exact ⟨rfl, text, htext, by rw [if_pos hfile]; exact ⟨map, hread, hdocument⟩⟩
    · rename_i hfile
      obtain ⟨hdocument, rfl⟩ := perform_pure_eq_ok.mp h
      exact ⟨rfl, text, htext, by rwa [if_neg hfile]⟩
  · rintro ⟨rfl, text, htext, h⟩
    refine ⟨text, tree, ⟨htext, rfl⟩, _, tree, ⟨rfl, rfl⟩, ?_⟩
    split at h
    · rename_i hfile
      obtain ⟨map, hread, hdocument⟩ := h
      rw [if_pos hfile]
      exact perform_bind_eq_ok.mpr ⟨map, tree, perform_attempt_read.mpr ⟨hread, rfl⟩,
        perform_pure_eq_ok.mpr ⟨hdocument, rfl⟩⟩
    · rename_i hfile
      rw [if_neg hfile]
      exact perform_pure_eq_ok.mpr ⟨h, rfl⟩

theorem document_eq_ok {input path : String} {document : Document} :
    tree.document input path = .ok document ↔
      tree.perform (Job.document input path) = (.ok document, tree) := by
  constructor
  · intro h
    have hpair : tree.perform (Job.document input path) =
        (.ok document, (tree.perform (Job.document input path)).2) := Prod.ext h rfl
    rwa [← (perform_document_eq_ok.mp hpair).1] at hpair
  · exact congrArg Prod.fst

theorem Wrote.document {writes : List (Place × Contents)} (h : tree.Wrote writes later)
    {input path : String} {document : Document}
    (hinput : ∀ write ∈ writes, write.1 ≠ .ofPath input)
    (hmap : ∀ write ∈ writes, write.1 ≠ .ofPath (input ++ ".map"))
    (hdocument : tree.document input path = .ok document) :
    later.document input path = .ok document := by
  rw [document_eq_ok, perform_document_eq_ok] at hdocument ⊢
  obtain ⟨-, text, htext, hrest⟩ := hdocument
  obtain ⟨place, hplace, -⟩ := read_eq_ok_iff.mp htext
  have hlocate := locate_append h.folders hplace (show '/' ∉ ".map".toList by decide)
  have hfile : later.hasFile (input ++ ".map") = tree.hasFile (input ++ ".map") := by
    rw [hasFile, hasFile, leads, leads, hlocate]
    cases hmapPlace : tree.locate (input ++ ".map") with
    | error fault => rfl
    | ok mapPlace =>
        rw [eq_ofPath_of_locate hmapPlace]
        exact congrArg Option.isSome (h.file? hmap)
  refine ⟨rfl, text, h.read hinput htext, ?_⟩
  rw [hfile]
  split at hrest
  · rename_i hknown
    obtain ⟨map, hread, hsame⟩ := hrest
    rw [if_pos hknown]
    exact ⟨map, h.read hmap hread, hsame⟩
  · rename_i hknown
    rwa [if_neg hknown]

end Perform

end Tree

end StyleSplit
