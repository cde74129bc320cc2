import StyleSplit.Proofs.Block.Sources
import StyleSplit.Proofs.Routing.Lookups

/-! The sources and the texts in the maps that are written with the blocks of a document. -/

namespace StyleSplit.Routing

variable {document : Document} {stylesheet : Stylesheet} {options : Options} {map : SourceMap}
  {block : Block}

theorem exists_sourcePosition?_of_mem_origins {index : LineIndex} {rule : Rule}
    {origin : Nat × SourcePosition} (h : origin ∈ origins map index rule) :
    ∃ position, map.sourcePosition? position = some origin.2 := by
  obtain ⟨part, -, hpart⟩ := List.mem_filterMap.mp h
  obtain ⟨generated, -, hpart⟩ := Option.bind_eq_some_iff.mp hpart
  obtain ⟨found, hfound, hpart⟩ := Option.bind_eq_some_iff.mp hpart
  split at hpart
  · cases hpart
    exact ⟨generated, hfound⟩
  · cases hpart

theorem listed_appendRules (block : Block) (text : String) (map : SourceMap)
    (index : LineIndex) (rules : List Rule) :
    (block.blank.appendRules text (originsOf (some map) index) rules).Listed ∧
      (block.blank.appendRules text (originsOf (some map) index) rules).AnsweredBy map := by
  induction rules using List.reverseRecOn with
  | nil => exact ⟨rfl, List.forall_mem_nil _⟩
  | append_singleton rules rule ih =>
      obtain ⟨hlisted, hanswered⟩ := ih
      rw [Block.appendRules_concat]
      exact ⟨hlisted.append .., hanswered.append _ fun origin horigin =>
        exists_sourcePosition?_of_mem_origins horigin⟩

theorem usableMap_of_map_ofStylesheet
    (h : (ofStylesheet document stylesheet options).map = some map) :
    stylesheet.problems = [] ∧ (usableMap document options).1 = some map := by
  unfold ofStylesheet at h
  cases hproblems : stylesheet.problems with
  | nil =>
      rw [hproblems] at h
      exact ⟨rfl, h⟩
  | cons problem problems =>
      rw [hproblems] at h
      cases h

theorem listed_of_mem_blocks (hmap : (ofStylesheet document stylesheet options).map = some map)
    (hblock : block ∈ (ofStylesheet document stylesheet options).blocks) :
    block.Listed ∧ block.AnsweredBy map := by
  obtain ⟨hproblems, husable⟩ := usableMap_of_map_ofStylesheet hmap
  rw [(ofStylesheet_eq_stateAfter document options hproblems).1] at hblock
  obtain ⟨id, hid⟩ := List.mem_iff_getElem?.mp hblock
  rw [Array.getElem?_toList] at hid
  rw [(tracks_stateAfter document options stylesheet.rules).holds id block hid, husable]
  exact listed_appendRules ..

/-- The map that is written with a block has each source of the block's mappings once, in
the order of their first use, and no others. When it is read back, it has the texts for them
that the map of the document has. Texts are written when one of the sources has one, and
then there is a place for each source. -/
theorem sources_ofStylesheet (document : Document) (stylesheet : Stylesheet)
    (options : Options) (wire : WireMap) (map : SourceMap)
    (hwire : SourceMap.ofWire wire = .ok map)
    (hmap : (ofStylesheet document stylesheet options).map = some map) :
    ∀ block ∈ (ofStylesheet document stylesheet options).blocks,
      let written := block.wireMap document.path options map
      (block.render document.path options
          (ofStylesheet document stylesheet options).map).map = some written.toText ∧
      ∃ read, SourceMap.ofWire written = .ok read ∧
        read.sources.toList = (block.mappings.toList.map (·.origin.source)).eraseDups ∧
        read.sources.toList.Nodup ∧
        (∀ source ∈ read.sources.toList,
          read.contentFor? source = map.contentFor? source) ∧
        (written.contents.isSome = true ↔
          ∃ source ∈ read.sources.toList, (map.contentFor? source).isSome = true) ∧
        (∀ texts, written.contents = some texts →
          texts = read.sources.toList.map map.contentFor?) ∧
        read.file = some (block.path document.path options) := by
  intro block hblock written
  obtain ⟨hlisted, hanswered⟩ := listed_of_mem_blocks hmap hblock
  obtain ⟨read, hread, hfile, hsources, htexts, hcontents⟩ :=
    hlisted.exists_ofWire hanswered hwire (block.path document.path options)
  replace hcontents : written.contents = _ := hcontents
  refine ⟨?_, read, hread, hsources, hsources ▸ nodup_eraseDups _, htexts, ?_, ?_, hfile⟩
  · rw [hmap]
    exact block.map_render document.path options map
  · have hiff : (∃ source ∈ read.sources.toList, (map.contentFor? source).isSome = true) ↔
        ¬ ∀ source ∈ read.sources.toList, map.contentFor? source = none := by
      simp [Option.isSome_iff_ne_none]
    rw [hiff, hcontents]
    split
    · rename_i hnone
      exact ⟨fun hwritten => absurd hwritten Bool.false_ne_true, fun hsome => absurd hnone hsome⟩
    · rename_i hsome
      exact ⟨fun _ => hsome, fun _ => rfl⟩
  · intro texts htexts
    rw [hcontents] at htexts
    split at htexts
    · cases htexts
    · exact (Option.some.inj htexts).symm

theorem sources_ofStylesheet_repeated :
    let wire : WireMap := {
      version := 3
      sources := [some "a.scss", some "unused.scss", some "b.scss"]
      contents := some [some "a", some "u", none]
      mappings := ";AEAA;AFCA;AEAA" }
    let document : Document := {
      path := "main.css"
      text := "/*! start:x.css */\n.a\x7b\x7d\n.b\x7b\x7d\n.c\x7b\x7d\n/*! end:x.css */\n"
      map := some (SourceMap.ofWire wire) }
    ∃ map block read, SourceMap.ofWire wire = .ok map ∧
      (ofDocument document {}).map = some map ∧ (ofDocument document {}).blocks[1]? = some block ∧
      SourceMap.ofWire (block.wireMap document.path {} map) = .ok read ∧
      read.sources.toList = ["b.scss", "a.scss"] ∧
      (block.wireMap document.path {} map).contents = some [none, some "a"] ∧
      read.file = some "x.css" := by
  intro wire document
  have hmapped : ((ofDocument document {}).map.bind fun map =>
      (ofDocument document {}).blocks[1]?.map fun block =>
        ((block.mappings.toList.map (·.origin.source)).eraseDups,
          ["b.scss", "a.scss"].map map.contentFor?, block.path document.path {})) =
      some (["b.scss", "a.scss"], [none, some "a"], "x.css") := by decide +kernel
  obtain ⟨map, hmap, hmapped⟩ := Option.bind_eq_some_iff.mp hmapped
  obtain ⟨block, hblock, hmapped⟩ := Option.map_eq_some_iff.mp hmapped
  obtain ⟨hnames, hmapped⟩ := Prod.mk.inj hmapped
  obtain ⟨htexts, hpath⟩ := Prod.mk.inj hmapped
  have hwire : SourceMap.ofWire wire = .ok map :=
    ofWire_eq_of_usableMap rfl (usableMap_of_map_ofStylesheet hmap).2
  obtain ⟨-, read, hread, hsources, -, -, hsome, hcontents, hfile⟩ :=
    sources_ofStylesheet document (.ofText document.text) {} wire map hwire hmap block
      (List.mem_of_getElem? hblock)
  rw [hnames] at hsources
  rw [hsources] at hsome hcontents
  rw [htexts] at hcontents
  have htext : map.contentFor? "a.scss" = some "a" :=
    (List.cons.inj (List.cons.inj htexts).2).1
  obtain ⟨texts, hwritten⟩ := Option.isSome_iff_exists.mp
    (hsome.mpr ⟨"a.scss", by simp, Option.isSome_of_eq_some htext⟩)
  exact ⟨map, block, read, hwire, hmap, hblock, hread, hsources,
    hwritten.trans (congrArg some (hcontents texts hwritten)), hfile.trans (congrArg some hpath)⟩

end StyleSplit.Routing
