import StyleSplit.Proofs.SourceMap.Decoded
import StyleSplit.Output

/-! What a builder holds after mappings were added to it: their sources, each once,
and an entry for each of them. -/

namespace StyleSplit.MapBuilder

variable {builder : MapBuilder}

def Indexed (builder : MapBuilder) : Prop :=
  ∀ entry ∈ builder.entries, entry.source < builder.sources.size

def written (builder : MapBuilder) : List Mapping :=
  builder.entries.toList.map fun entry => ⟨entry.generated, builder.origin entry⟩

theorem indexOf?_eq (builder : MapBuilder) (source : String) :
    builder.indexOf? source = builder.sourceNames.idxOf? source := by
  have hlist : builder.sources.toList.toArray = builder.sources := Array.toArray_toList
  rw [indexOf?, ← hlist, List.findIdx?_toArray, sourceNames, List.idxOf?, List.findIdx?_map]
  rfl

theorem toList_sources_addMapping (builder : MapBuilder) (generated : Position)
    (source : String) (origin : Position) :
    (builder.addMapping generated source origin).sources.toList =
      if source ∈ builder.sourceNames then builder.sources.toList
      else builder.sources.toList ++ [(source, none)] := by
  unfold addMapping
  rw [indexOf?_eq]
  cases hindex : builder.sourceNames.idxOf? source with
  | some index =>
      have hmem : source ∈ builder.sourceNames := by
        rw [← List.isSome_idxOf?, hindex]
        rfl
      rw [if_pos hmem]
  | none => rw [if_neg (List.idxOf?_eq_none_iff.mp hindex), Array.toList_push]

theorem sourceNames_addMapping (builder : MapBuilder) (generated : Position)
    (source : String) (origin : Position) :
    (builder.addMapping generated source origin).sourceNames =
      if source ∈ builder.sourceNames then builder.sourceNames
      else builder.sourceNames ++ [source] := by
  rw [sourceNames, toList_sources_addMapping]
  split
  · rfl
  · rw [List.map_append]
    rfl

theorem nodup_sourceNames_addMapping (h : builder.sourceNames.Nodup) (generated : Position)
    (source : String) (origin : Position) :
    (builder.addMapping generated source origin).sourceNames.Nodup := by
  rw [sourceNames_addMapping]
  split
  · exact h
  · rename_i hnew
    exact List.nodup_append.mpr ⟨h, List.nodup_singleton source,
      fun _ hold _ hsource heq => hnew (List.mem_singleton.mp hsource ▸ heq ▸ hold)⟩

theorem exists_entries_addMapping (builder : MapBuilder) (generated : Position)
    (source : String) (origin : Position) :
    ∃ index, (builder.addMapping generated source origin).entries =
        builder.entries.push ⟨generated, index, origin⟩ ∧
      (builder.addMapping generated source origin).sourceNames[index]? = some source := by
  unfold addMapping
  rw [indexOf?_eq]
  cases hindex : builder.sourceNames.idxOf? source with
  | some index =>
      obtain ⟨hlt, hname, -⟩ := List.idxOf?_eq_some_iff.mp hindex
      exact ⟨index, rfl, List.getElem?_eq_some_iff.mpr ⟨hlt, hname⟩⟩
  | none =>
      refine ⟨builder.sources.size, rfl, ?_⟩
      simp [sourceNames]

theorem origin_eq_of_sourceNames {other : MapBuilder} {entry : Entry}
    (hnames : builder.sourceNames <+: other.sourceNames)
    (hentry : entry.source < builder.sources.size) :
    other.origin entry = builder.origin entry := by
  obtain ⟨later, hlater⟩ := hnames
  rw [← length_sourceNames] at hentry
  rw [origin, origin, ← hlater, List.getD_append _ _ _ _ hentry]

theorem prefix_addMapping (builder : MapBuilder) (generated : Position)
    (source : String) (origin : Position) :
    builder.sourceNames <+: (builder.addMapping generated source origin).sourceNames := by
  rw [sourceNames_addMapping]
  split
  · exact List.prefix_rfl
  · exact List.prefix_append ..

theorem Indexed.addMapping (h : builder.Indexed) (generated : Position) (source : String)
    (origin : Position) : (builder.addMapping generated source origin).Indexed := by
  obtain ⟨index, hentries, hname⟩ := exists_entries_addMapping builder generated source origin
  obtain ⟨hlt, -⟩ := List.getElem?_eq_some_iff.mp hname
  have hle := (prefix_addMapping builder generated source origin).length_le
  rw [length_sourceNames] at hlt
  rw [length_sourceNames, length_sourceNames] at hle
  intro entry hentry
  rw [hentries, Array.mem_push] at hentry
  rcases hentry with hold | rfl
  · exact Nat.lt_of_lt_of_le (h entry hold) hle
  · exact hlt

theorem Indexed.written_addMapping (h : builder.Indexed) (generated : Position)
    (source : String) (origin : Position) :
    (builder.addMapping generated source origin).written =
      builder.written ++ [⟨generated, ⟨source, origin⟩⟩] := by
  obtain ⟨index, hentries, hname⟩ := exists_entries_addMapping builder generated source origin
  rw [written, hentries, Array.toList_push, List.map_append, List.map_singleton]
  congr 1
  · apply List.map_congr_left
    intro entry hentry
    rw [origin_eq_of_sourceNames (prefix_addMapping builder generated source origin)
      (h entry (by simpa using hentry))]
  · rw [MapBuilder.origin, List.getD_eq_getElem?_getD, hname]
    rfl

theorem size_sources_addMapping_le (builder : MapBuilder) (generated : Position)
    (source : String) (origin : Position) :
    (builder.addMapping generated source origin).sources.size ≤ builder.sources.size + 1 := by
  rw [← length_sourceNames, sourceNames_addMapping]
  split
  · rw [length_sourceNames]
    exact Nat.le_succ _
  · rw [List.length_append, length_sourceNames]
    exact Nat.le_refl _

@[simp] theorem sourceNames_setContent (builder : MapBuilder) (source : String)
    (content : Option String) :
    (builder.setContent source content).sourceNames = builder.sourceNames := by
  rw [sourceNames, setContent, Array.toList_map, List.map_map]
  apply List.map_congr_left
  intro entry _
  dsimp only [Function.comp_apply]
  split <;> rfl

def addAll (builder : MapBuilder) (mappings : List Mapping) : MapBuilder :=
  mappings.foldl (fun builder mapping =>
    builder.addMapping mapping.generated mapping.origin.source mapping.origin.position) builder

theorem indexed_of_isEmpty (h : builder.entries = #[]) : builder.Indexed := by
  intro entry hentry
  simp [h] at hentry

theorem Indexed.addAll (h : builder.Indexed) (mappings : List Mapping) :
    (builder.addAll mappings).Indexed ∧
      (builder.addAll mappings).written = builder.written ++ mappings ∧
      (builder.addAll mappings).sources.size ≤ builder.sources.size + mappings.length := by
  induction mappings generalizing builder with
  | nil => exact ⟨h, (List.append_nil _).symm, Nat.le_refl _⟩
  | cons mapping mappings ih =>
      have hnext := h.addMapping mapping.generated mapping.origin.source mapping.origin.position
      have hsize := size_sources_addMapping_le builder mapping.generated mapping.origin.source
        mapping.origin.position
      obtain ⟨hindexed, hwritten, hsources⟩ := ih hnext
      rw [h.written_addMapping, List.append_assoc] at hwritten
      refine ⟨hindexed, hwritten, ?_⟩
      rw [List.length_cons]
      exact Nat.le_trans hsources (by omega)

theorem nodup_sourceNames_addAll (h : builder.sourceNames.Nodup) (mappings : List Mapping) :
    (builder.addAll mappings).sourceNames.Nodup := by
  induction mappings generalizing builder with
  | nil => exact h
  | cons mapping mappings ih => exact ih (nodup_sourceNames_addMapping h _ _ _)

theorem foldl_setContent (builder : MapBuilder) (sources : List String)
    (content : String → Option String) :
    (sources.foldl (fun builder source => builder.setContent source (content source))
        builder).sourceNames = builder.sourceNames ∧
      (sources.foldl (fun builder source => builder.setContent source (content source))
        builder).entries = builder.entries := by
  induction sources generalizing builder with
  | nil => exact ⟨rfl, rfl⟩
  | cons source sources ih =>
      obtain ⟨hnames, hentries⟩ := ih (builder.setContent source (content source))
      rw [sourceNames_setContent] at hnames
      exact ⟨hnames, hentries⟩

theorem Indexed.readable (h : builder.Indexed) (hcount : builder.sources.size < 2 ^ 63)
    (hlines : ∀ mapping ∈ builder.written,
      mapping.generated.line ≠ 0 ∧ mapping.origin.position.line ≠ 0) : builder.Readable := by
  refine ⟨hcount, ?_⟩
  intro entry hentry
  obtain ⟨hgenerated, horigin⟩ := hlines ⟨entry.generated, builder.origin entry⟩
    (List.mem_map.mpr ⟨entry, by simpa using hentry, rfl⟩)
  exact ⟨hgenerated, h entry hentry, horigin⟩

/-- When mappings were added in the order of their positions, the map that is read
back answers with the last of them on the line that is not after the position. -/
theorem Readable.sourcePosition?_of_before (h : builder.Readable)
    (hordered : builder.written.Pairwise fun first second =>
      first.generated.Before second.generated) (position : Position) :
    builder.decoded.sourcePosition? position =
      ((builder.written.filter fun mapping =>
        mapping.generated.line = position.line ∧
          mapping.generated.column ≤ position.column).getLast?).map (·.origin) := by
  rw [written, List.pairwise_map] at hordered
  rw [h.sourcePosition?_decoded, sortedEntries_of_before hordered, written, List.filter_map,
    List.getLast?_map, Option.map_map]
  rfl

end StyleSplit.MapBuilder
