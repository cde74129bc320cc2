import StyleSplit.Proofs.Block.Appends
import StyleSplit.Proofs.Block.Map
import StyleSplit.Proofs.SourceMap.Sources

/-! The map that a block is written with has the sources of its mappings, and their texts. -/

namespace StyleSplit.Block

open MapBuilder (Call added used lastContent lastFile)

variable {block : Block} {map : SourceMap} {wire : WireMap} {source : String}

def mapCalls (block : Block) (map : SourceMap) : List Call :=
  block.mappings.toList.map .addMapping ++
    block.sources.toList.map fun source => .setContent source (map.contentFor? source)

theorem mapBuilder_eq_run (block : Block) (path : String) (map : SourceMap) :
    block.mapBuilder path map = .run { file := some path } (block.mapCalls map) := by
  rw [mapBuilder, ← Array.foldl_toList, ← Array.foldl_toList, MapBuilder.run, mapCalls,
    List.foldl_append, List.foldl_map, List.foldl_map]
  rfl

theorem added_map_addMapping (mappings : List Mapping) :
    added (mappings.map .addMapping) = mappings := by
  rw [added, List.filterMap_map]
  exact List.filterMap_some

theorem added_mapCalls (block : Block) (map : SourceMap) :
    added (block.mapCalls map) = block.mappings.toList := by
  have hnone : (block.sources.toList.map fun source =>
      Call.setContent source (map.contentFor? source)).filterMap Call.mapping? = [] := by
    simp [Call.mapping?]
  rw [added, mapCalls, List.filterMap_append, hnone, List.append_nil]
  exact added_map_addMapping _

theorem used_mapCalls (block : Block) (map : SourceMap) :
    used (block.mapCalls map) = (block.mappings.toList.map (·.origin.source)).eraseDups := by
  rw [used, added_mapCalls]

theorem lastFile_mapCalls (file : Option String) (block : Block) (map : SourceMap) :
    lastFile file (block.mapCalls map) = file := by
  have hnone : (block.mapCalls map).filterMap Call.file? = [] := by
    simp [mapCalls, Call.file?, List.filterMap_eq_nil_iff]
  rw [lastFile, hnone]
  rfl

theorem Listed.lastContent_mapCalls (h : block.Listed)
    (hsource : source ∈ used (block.mapCalls map)) :
    lastContent (block.mapCalls map) source = map.contentFor? source := by
  have hmapped : source ∈ used (block.mappings.toList.map .addMapping) := by
    rw [used, added_map_addMapping]
    rwa [used_mapCalls] at hsource
  rw [used_mapCalls, ← h] at hsource
  rw [mapCalls, MapBuilder.lastContent_append_of_mem hmapped, List.filterMap_map]
  cases hlast : (block.sources.toList.filterMap (Call.content? source ∘
      fun source => .setContent source (map.contentFor? source))).getLast? with
  | none =>
      rw [List.getLast?_eq_none_iff, List.filterMap_eq_nil_iff] at hlast
      have hnone := hlast source hsource
      simp [Call.content?] at hnone
  | some content =>
      obtain ⟨name, -, hcontent⟩ := List.mem_filterMap.mp (List.mem_of_getLast? hlast)
      rw [Function.comp_apply, Call.content?] at hcontent
      split at hcontent
      · rename_i hname
        cases hcontent
        rw [hname]
        rfl
      · cases hcontent

/-- Every origin in the block is an answer of the map. -/
def AnsweredBy (block : Block) (map : SourceMap) : Prop :=
  ∀ mapping ∈ block.mappings.toList,
    ∃ position, map.sourcePosition? position = some mapping.origin

theorem AnsweredBy.append (h : block.AnsweredBy map) (text : String)
    {origins : List (Nat × SourcePosition)}
    (horigins : ∀ origin ∈ origins, ∃ position, map.sourcePosition? position = some origin.2) :
    (block.append text origins).AnsweredBy map := by
  intro mapping hmapping
  rw [mappings_append, List.mem_append, List.mem_filterMap] at hmapping
  rcases hmapping with hold | ⟨origin, horigin, hnew⟩
  · exact h mapping hold
  · obtain ⟨generated, -, rfl⟩ := Option.map_eq_some_iff.mp hnew
    exact horigins origin horigin

theorem AnsweredBy.size_sources_le (h : block.AnsweredBy map)
    (hwire : SourceMap.ofWire wire = .ok map) (path : String) :
    (block.mapBuilder path map).sources.size ≤ 2 ^ 63 := by
  have hnames : (block.mapBuilder path map).sourceNames =
      (block.mappings.toList.map (·.origin.source)).eraseDups := by
    rw [mapBuilder_eq_run, (MapBuilder.Recounts.run _ _).sourceNames_eq, used_mapCalls]
  have hsubset : (block.mappings.toList.map (·.origin.source)).eraseDups ⊆
      map.sources.toList.take (2 ^ 63) := by
    intro source hsource
    obtain ⟨mapping, hmapping, rfl⟩ := List.mem_map.mp (List.mem_eraseDups.mp hsource)
    obtain ⟨position, hposition⟩ := h mapping hmapping
    exact SourceMap.mem_take_of_sourcePosition? hwire hposition
  have hlength := (List.subperm_of_subset (nodup_eraseDups _) hsubset).length_le
  rw [← MapBuilder.length_sourceNames, hnames]
  exact hlength.trans (List.length_take_le ..)

theorem AnsweredBy.readable (h : block.AnsweredBy map)
    (hwire : SourceMap.ofWire wire = .ok map) (path : String) :
    ∀ entry ∈ (block.mapBuilder path map).entries,
      entry.Readable (block.mapBuilder path map).sources.size := by
  obtain ⟨hindexed, hwritten, -⟩ := block.written_mapBuilder path map
  intro entry hentry
  have hmapping : ⟨entry.generated, (block.mapBuilder path map).origin entry⟩ ∈
      block.mappings.toList := by
    rw [← hwritten]
    exact List.mem_map.mpr ⟨entry, by simpa using hentry, rfl⟩
  obtain ⟨position, hposition⟩ := h _ hmapping
  exact ⟨hindexed entry hentry, SourceMap.line_ne_zero_of_sourcePosition? hwire hposition⟩

theorem Listed.exists_ofWire (hlisted : block.Listed) (hanswered : block.AnsweredBy map)
    (hwire : SourceMap.ofWire wire = .ok map) (path : String) :
    ∃ read, SourceMap.ofWire (block.mapBuilder path map).toWire = .ok read ∧
      read.file = some path ∧
      read.sources.toList = (block.mappings.toList.map (·.origin.source)).eraseDups ∧
      (∀ source ∈ read.sources.toList, read.contentFor? source = map.contentFor? source) ∧
      (block.mapBuilder path map).toWire.contents =
        if ∀ source ∈ read.sources.toList, map.contentFor? source = none then none
        else some (read.sources.toList.map map.contentFor?) := by
  have hrecounts : (block.mapBuilder path map).Recounts (some path) (block.mapCalls map) := by
    rw [mapBuilder_eq_run]
    exact .run _ _
  have hcontent : ∀ source ∈ used (block.mapCalls map),
      lastContent (block.mapCalls map) source = map.contentFor? source :=
    fun source hsource => hlisted.lastContent_mapCalls hsource
  obtain ⟨read, hread, hfile, hsources, hcontents⟩ := MapBuilder.exists_ofWire_toWire
    (hanswered.size_sources_le hwire path) (hanswered.readable hwire path)
  have hnames : read.sources.toList = used (block.mapCalls map) :=
    hsources.trans hrecounts.sourceNames_eq
  refine ⟨read, hread, ?_, hnames.trans (used_mapCalls ..), ?_, ?_⟩
  · rw [hfile, hrecounts.file_eq, lastFile_mapCalls]
  · intro source hsource
    rw [hnames] at hsource
    rw [hrecounts.contentFor?_eq hsource hsources hcontents, hcontent source hsource]
  · rw [hrecounts.contents_toWire, hnames]
    refine if_congr ?_ rfl (congrArg some (List.map_congr_left hcontent))
    exact forall₂_congr fun source hsource => by rw [hcontent source hsource]

end StyleSplit.Block
