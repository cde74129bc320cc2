import StyleSplit.Proofs.Outcome
import StyleSplit.Proofs.Template
import StyleSplit.Proofs.Written

/-! The files of one document, stylesheets and maps together: when their paths are all
different, and what is left of them when they are written one after another. -/

namespace StyleSplit

namespace Output

theorem toList_mapPath (output : Output) :
    output.mapPath.toList = output.path.toList ++ ".map".toList :=
  String.toList_append

theorem mapPath_inj {first second : Output} :
    first.mapPath = second.mapPath ↔ first.path = second.path := by
  rw [← String.toList_inj, toList_mapPath, toList_mapPath, List.append_left_inj,
    String.toList_inj]

theorem path_ne_mapPath (output : Output) : output.path ≠ output.mapPath := by
  intro h
  have hlength := congrArg (·.toList.length) h
  rw [toList_mapPath, List.length_append] at hlength
  exact absurd hlength (by simp)

theorem mem_paths_iff {output : Output} {path : String} :
    path ∈ output.artifacts.map Prod.fst ↔
      path = output.path ∨ output.map.isSome = true ∧ path = output.mapPath := by
  rw [artifacts]
  cases output.map <;> simp

/-- Outputs with paths of their own have no path twice, unless the map of one has the path
of another. -/
theorem nodup_artifacts_iff {outputs : List Output} (h : (outputs.map (·.path)).Nodup) :
    ((outputs.flatMap artifacts).map Prod.fst).Nodup ↔
      ∀ first ∈ outputs, ∀ second ∈ outputs, first.map.isSome = true →
        second.path ≠ first.mapPath := by
  rw [List.map_flatMap, List.nodup_flatMap]
  constructor
  · rintro ⟨-, hpairs⟩ first hfirst second hsecond hmap hpath
    have hne : first ≠ second := by
      rintro rfl
      exact first.path_ne_mapPath hpath
    have hsymm : Std.Symm
        (Function.onFun List.Disjoint fun output : Output => output.artifacts.map Prod.fst) :=
      ⟨fun _ _ hdisjoint => hdisjoint.symm⟩
    apply hpairs.forall hfirst hsecond hne
    · exact mem_paths_iff.mpr (.inr ⟨hmap, rfl⟩)
    · exact mem_paths_iff.mpr (.inl hpath.symm)
  · intro hcross
    refine ⟨fun output _ => ?_, (List.pairwise_map.mp h).imp_of_mem ?_⟩
    · rw [artifacts]
      cases output.map with
      | none => exact List.nodup_singleton _
      | some map => simp [output.path_ne_mapPath]
    · intro first second hfirst hsecond hne path hpath hsame
      rcases mem_paths_iff.mp hpath with rfl | ⟨hmap, rfl⟩
      · rcases mem_paths_iff.mp hsame with hpaths | ⟨hmap, hpaths⟩
        · exact hne hpaths
        · exact hcross second hsecond first hfirst hmap hpaths
      · rcases mem_paths_iff.mp hsame with hpaths | ⟨-, hpaths⟩
        · exact hcross first hfirst second hsecond hmap hpaths.symm
        · exact hne (mapPath_inj.mp hpaths)

end Output

theorem Path.isSuffix_sibling (path : String) {name : String} {ending : List Char}
    (h : ending <:+ name.toList) : ending <:+ (sibling path name).toList := by
  rw [sibling]
  split
  · rw [String.toList_ofList]
    exact h.trans ((List.suffix_cons '/' name.toList).trans (List.suffix_append _ _))
  · exact h

namespace Outcome

variable {document : Document} {stylesheet : Stylesheet} {options : Options}

theorem nodup_paths (document : Document) (stylesheet : Stylesheet) (options : Options) :
    ((ofStylesheet document stylesheet options).outputs.map (·.path)).Nodup :=
  (nodup_resolve [] _).1

theorem exists_of_mem_resolve {claimed : List (String × Block)}
    {rendered : List (Block × Output)} {output : Output}
    (h : output ∈ (resolve claimed rendered).1) : ∃ block, (block, output) ∈ rendered := by
  induction rendered generalizing claimed with
  | nil => cases h
  | cons entry rendered ih =>
      obtain ⟨block, first⟩ := entry
      rw [resolve] at h
      cases howner : claimed.lookup first.path with
      | some owner =>
          rw [howner] at h
          obtain ⟨other, hother⟩ := ih h
          exact ⟨other, List.mem_cons_of_mem _ hother⟩
      | none =>
          rw [howner] at h
          rcases List.mem_cons.mp h with rfl | hmem
          · exact ⟨block, List.mem_cons_self⟩
          · obtain ⟨other, hother⟩ := ih hmem
            exact ⟨other, List.mem_cons_of_mem _ hother⟩

theorem exists_of_mem_outputs {output : Output}
    (h : output ∈ (ofStylesheet document stylesheet options).outputs) :
    ∃ block : Block, output = block.render document.path options
      (Routing.ofStylesheet document stylesheet options).map := by
  obtain ⟨block, hblock⟩ := exists_of_mem_resolve h
  obtain ⟨other, -, hother⟩ := List.mem_map.mp hblock
  obtain ⟨rfl, rfl⟩ := Prod.mk.inj hother
  exact ⟨_, rfl⟩

theorem path_eq_or_isSuffix (htemplate : ".css".toList <:+ options.filename.pattern.toList)
    {output : Output} (h : output ∈ (ofStylesheet document stylesheet options).outputs) :
    output.path = document.path ∨ ".css".toList <:+ output.path.toList := by
  obtain ⟨block, rfl⟩ := exists_of_mem_outputs h
  rw [path_render, Block.path]
  split
  · exact .inl rfl
  · exact .inr (Path.isSuffix_sibling document.path
      (Template.extension_isSuffix_apply htemplate block.outputName block.text options.hash))

theorem path_ne_mapPath_of_isSuffix
    (htemplate : ".css".toList <:+ options.filename.pattern.toList)
    (hdocument : ¬ ".css.map".toList <:+ document.path.toList) {first second : Output}
    (hfirst : first ∈ (ofStylesheet document stylesheet options).outputs)
    (hsecond : second ∈ (ofStylesheet document stylesheet options).outputs) :
    second.path ≠ first.mapPath := by
  intro h
  have hmap : second.path.toList = first.path.toList ++ ".map".toList := by
    rw [h, Output.toList_mapPath]
  rcases path_eq_or_isSuffix htemplate hsecond with hpath | hcss
  · rcases path_eq_or_isSuffix htemplate hfirst with hsame | ⟨stem, hstem⟩
    · exact first.path_ne_mapPath (hsame.trans (hpath.symm.trans h))
    · rw [hpath, ← hstem, List.append_assoc] at hmap
      exact hdocument ⟨stem, hmap.symm⟩
  · have hboth := List.suffix_of_suffix_length_le hcss ⟨_, hmap.symm⟩ (by decide)
    exact absurd hboth (by decide)

/-- The stylesheets of a document have different paths, and so have its maps. All the paths
are different unless the map of one block has the path of another block's stylesheet, and
then each file is there once all are written. -/
theorem artifacts_ofStylesheet (document : Document) (stylesheet : Stylesheet)
    (options : Options) :
    let outputs := (ofStylesheet document stylesheet options).outputs
    let artifacts := (ofStylesheet document stylesheet options).artifacts
    (outputs.map (·.path)).Nodup ∧ (outputs.map (·.mapPath)).Nodup ∧
      ((artifacts.map Prod.fst).Nodup ↔
        ∀ first ∈ outputs, ∀ second ∈ outputs, first.map.isSome = true →
          second.path ≠ first.mapPath) ∧
      ((artifacts.map Prod.fst).Nodup → ∀ files, ∀ artifact ∈ artifacts,
        written files artifacts artifact.1 = some artifact.2) ∧
      ((∀ output ∈ outputs, output.map = none) → (artifacts.map Prod.fst).Nodup) ∧
      (".css".toList <:+ options.filename.pattern.toList →
        ¬ ".css.map".toList <:+ document.path.toList → (artifacts.map Prod.fst).Nodup) := by
  intro outputs artifacts
  have hpaths := nodup_paths document stylesheet options
  have hnodup := Output.nodup_artifacts_iff hpaths
  refine ⟨hpaths, ?_, hnodup, ?_, ?_, ?_⟩
  · rw [List.Nodup, List.pairwise_map] at hpaths ⊢
    exact hpaths.imp fun hne hsame => hne (Output.mapPath_inj.mp hsame)
  · intro h files artifact hartifact
    exact written_of_nodup h files hartifact
  · intro h
    refine hnodup.mpr fun first hfirst _ _ hmap => ?_
    rw [h first hfirst] at hmap
    cases hmap
  · intro htemplate hdocument
    exact hnodup.mpr fun first hfirst second hsecond _ =>
      path_ne_mapPath_of_isSuffix htemplate hdocument hfirst hsecond

theorem artifacts_ofStylesheet_named :
    let document : Document := {
      path := "css/main.css"
      text := "/*! start:a.css */.a\x7b\x7d/*! end:a.css */\n.b\x7b\x7d\n"
      map := some (SourceMap.ofWire
        { version := 3, sources := [some "a.scss"], mappings := "AAAA" }) }
    let stylesheet := Stylesheet.ofText document.text
    let artifacts := (ofStylesheet document stylesheet {}).artifacts
    artifacts.map Prod.fst =
        ["css/main.css", "css/main.css.map", "css/a.css", "css/a.css.map"] ∧
      ∀ files : String → Option String, ∀ artifact ∈ artifacts,
        written files artifacts artifact.1 = some artifact.2 := by
  intro document stylesheet artifacts
  obtain ⟨-, -, -, hwritten, -, hnodup⟩ := artifacts_ofStylesheet document stylesheet {}
  exact ⟨by decide +kernel, hwritten (hnodup (by decide +kernel) (by decide +kernel))⟩

/-- The map of the document's own block has the path of another block's stylesheet, which
is written over it. -/
theorem not_nodup_artifacts :
    let document : Document := {
      path := "main.css"
      text := "/*! start:main.css */.a\x7b\x7d/*! end:main.css */\n"
      map := some (SourceMap.ofWire
        { version := 3, sources := [some "a.scss"], mappings := "AAAA" }) }
    let options : Options := { filename := ⟨"[name].css.map"⟩ }
    let artifacts := (ofDocument document options).artifacts
    options.fault? = none ∧
      artifacts.map Prod.fst =
        ["main.css", "main.css.map", "main.css.map", "main.css.map.map"] ∧
      ¬ (artifacts.map Prod.fst).Nodup ∧
      written (fun _ => none) artifacts "main.css.map" =
        some ".a\x7b\x7d\n/*# sourceMappingURL=main.css.map.map*/\n" := by
  intro document options artifacts
  have hpaths : artifacts.map Prod.fst =
      ["main.css", "main.css.map", "main.css.map", "main.css.map.map"] := by decide +kernel
  refine ⟨by decide +kernel, hpaths, ?_, by decide +kernel⟩
  rw [hpaths]
  decide

end Outcome

end StyleSplit
