import StyleSplit.Proofs.SourceMap.Builder

/-! A map that is written and read back has the mappings that were added, each of
them once, in the order of their positions. -/

namespace StyleSplit.MapBuilder

variable {builder : MapBuilder} {count : Nat} {entries : List Entry}

def rowOrigins (row : Nat) (segments : List (Segment count)) :
    List (Position × Origin count) :=
  segments.filterMap fun segment =>
    segment.origin.map fun origin => (⟨.ofNat (row + 1), segment.column⟩, origin)

def entryOrigin? (count : Nat) (entry : Entry) : Option (Position × Origin count) :=
  (entry.segment count).origin.map fun origin => (entry.generated, origin)

theorem flatMap_rowOrigins_replicate (lines row : Nat) :
    ((List.replicate lines ([] : List (Segment count))).zipIdx row).flatMap
      (fun (segments, row) => rowOrigins row segments) = [] := by
  induction lines generalizing row with
  | zero => rfl
  | succ lines ih => exact ih (row + 1)

theorem flatMap_rowOrigins_rows {line : Nat}
    (hlines : ∀ entry ∈ entries, line + 1 ≤ entry.generated.line.toNat)
    (hordered : entries.Pairwise fun first second =>
      first.generated.line.toNat ≤ second.generated.line.toNat) :
    ((rows count (line + 1) entries).zipIdx line).flatMap
        (fun (segments, row) => rowOrigins row segments) =
      entries.filterMap (entryOrigin? count) := by
  induction entries generalizing line with
  | nil => rfl
  | cons entry entries ih =>
      obtain ⟨hfirst, hpairwise⟩ := List.pairwise_cons.mp hordered
      obtain ⟨skipped, hskipped⟩ :=
        Nat.exists_eq_add_of_le (hlines entry List.mem_cons_self)
      have hline : entry.generated.line.toNat = line + skipped + 1 := by omega
      rw [hline] at hfirst
      have hrest := ih hfirst hpairwise
      obtain ⟨first, rest, hrows⟩ := exists_rows count (line + skipped + 1) entries
      have hgenerated : (⟨.ofNat (line + skipped + 1), entry.generated.column⟩ : Position) =
          entry.generated := by
        rw [← hline, UInt32.ofNat_toNat]
      rw [rows, hline, Nat.add_sub_add_right, Nat.add_sub_cancel_left, List.zipIdx_append,
        List.flatMap_append, flatMap_rowOrigins_replicate, List.nil_append,
        List.length_replicate, hrows, List.modifyHead_cons]
      rw [hrows, List.zipIdx_cons, List.flatMap_cons] at hrest
      rw [List.zipIdx_cons, List.flatMap_cons, List.filterMap_cons, ← hrest, entryOrigin?]
      dsimp only [rowOrigins]
      rw [List.filterMap_cons]
      cases (entry.segment count).origin with
      | none => rfl
      | some origin =>
          rw [Option.map_some, Option.map_some]
          change ((⟨.ofNat (line + skipped + 1), entry.generated.column⟩ : Position), origin) ::
            _ = _
          rw [hgenerated]
          rfl

theorem origins_decoded (builder : MapBuilder) (hlines : ∀ entry ∈ builder.sortedEntries,
    1 ≤ entry.generated.line.toNat) :
    builder.decoded.origins =
      builder.sortedEntries.filterMap (entryOrigin? builder.decoded.sources.size) := by
  have hrows := @flatMap_rowOrigins_rows builder.decoded.sources.size _ 0 hlines
    (pairwise_line builder)
  rw [← hrows, SourceMap.origins]
  change ((((rows _ 1 builder.sortedEntries).map List.toArray).toArray.toList).zipIdx).flatMap
    _ = _
  rw [List.toList_toArray, List.zipIdx_map, List.flatMap_map]
  rfl

theorem Readable.mappings_decoded (h : builder.Readable) :
    builder.decoded.mappings =
      builder.sortedEntries.map fun entry => (entry.generated, builder.origin entry) := by
  rw [SourceMap.mappings, origins_decoded builder h.le_line, List.map_filterMap,
    ← List.filterMap_eq_map]
  apply List.filterMap_congr
  intro entry hentry
  have horigin := h.sourcePosition_segment hentry
  rw [entryOrigin?, Option.map_map]
  obtain ⟨origin, hsegment, hposition⟩ := Option.map_eq_some_iff.mp horigin
  rw [hsegment, Option.map_some, Function.comp_apply, Function.comp_apply, ← hposition]

/-- Mappings are written in the order of these numbers: those of the generated position,
then the number of the source, then those of the position in it. -/
def sortKey (names : List String) (generated : Position) (origin : SourcePosition) : List Nat :=
  [generated.line.toNat, generated.column.toNat, names.idxOf origin.source,
    origin.position.line.toNat, origin.position.column.toNat]

theorem sortKey_lt_of_le {first second : Entry} (hnodup : builder.sourceNames.Nodup)
    (hfirst : first.source < builder.sources.size)
    (hsecond : second.source < builder.sources.size) (hle : first.le second = true)
    (hne : first ≠ second) :
    sortKey builder.sourceNames first.generated (builder.origin first) <
      sortKey builder.sourceNames second.generated (builder.origin second) := by
  have hindex {entry : Entry} (hentry : entry.source < builder.sources.size) :
      builder.sourceNames.idxOf (builder.origin entry).source = entry.source := by
    rw [← length_sourceNames] at hentry
    rw [origin, List.getD_eq_getElem _ _ hentry, hnodup.idxOf_getElem]
  have hnot : ¬ second.le first = true := fun hback => hne (Entry.le_antisymm hle hback)
  rw [Entry.le_iff] at hle hnot
  simp only [sortKey, hindex hfirst, hindex hsecond, List.cons_lt_cons_iff, List.lt_irrefl]
  change _ ∨ _ ∧ (_ ∨ _ ∧ (_ ∨ _ ∧ (first.origin.line.toNat < second.origin.line.toNat ∨
    first.origin.line.toNat = second.origin.line.toNat ∧
      (first.origin.column.toNat < second.origin.column.toNat ∨
        first.origin.column.toNat = second.origin.column.toNat ∧ False))))
  omega

theorem Readable.pairwise_mappings_decoded (h : builder.Readable)
    (hnodup : builder.sourceNames.Nodup) :
    builder.decoded.mappings.Pairwise fun first second =>
      sortKey builder.sourceNames first.1 first.2 <
        sortKey builder.sourceNames second.1 second.2 := by
  rw [h.mappings_decoded, List.pairwise_map]
  have hsource {entry : Entry} (hentry : entry ∈ builder.sortedEntries) :=
    (h.2 entry (mem_sortedEntries.mp hentry)).2.source_lt
  apply ((pairwise_sortedEntries builder).and (nodup_sortedEntries builder)).imp_of_mem
  intro first second hfirst hsecond hboth
  exact sortKey_lt_of_le hnodup (hsource hfirst) (hsource hsecond) hboth.1 hboth.2

theorem Readable.mem_mappings_decoded (h : builder.Readable)
    {generated : Position} {origin : SourcePosition} :
    (generated, origin) ∈ builder.decoded.mappings ↔ ⟨generated, origin⟩ ∈ builder.written := by
  rw [h.mappings_decoded, written, List.mem_map, List.mem_map]
  simp only [mem_sortedEntries, Array.mem_toList_iff, Prod.mk.injEq, Mapping.mk.injEq]

variable {file : Option String} {mappings : List Mapping}

theorem written_addAll (file : Option String) (mappings : List Mapping) :
    (addAll { file } mappings).written = mappings :=
  ((@indexed_of_isEmpty { file } rfl).addAll mappings).2.1

theorem readable_addAll (hlines : ∀ mapping ∈ mappings,
      mapping.generated.line ≠ 0 ∧ mapping.origin.position.line ≠ 0)
    (hlength : mappings.length < 2 ^ 63) : (addAll { file } mappings).Readable := by
  obtain ⟨hindexed, hwritten, hsources⟩ := (@indexed_of_isEmpty { file } rfl).addAll mappings
  apply hindexed.readable
  · have hsize : (addAll { file } mappings).sources.size ≤ 0 + mappings.length := hsources
    omega
  · rw [hwritten]
    exact hlines

/-- Writing and reading are inverse: the map that is read back lists the sources of the
builder and has each mapping that was added once, in the order of their numbers. The
order of adding decides only how sources are numbered. Numbers are signed words of 64
bits, and no list in memory is longer than what they count. -/
theorem mappings_ofWire_addAll (file : Option String) (mappings : List Mapping)
    (hlines : ∀ mapping ∈ mappings,
      mapping.generated.line ≠ 0 ∧ mapping.origin.position.line ≠ 0)
    (hlength : mappings.length < 2 ^ 63) :
    let builder := addAll { file } mappings
    ∃ map, SourceMap.ofWire builder.toWire = .ok map ∧
      map.sources.toList = builder.sourceNames ∧
      (∀ generated origin,
        (generated, origin) ∈ map.mappings ↔ ⟨generated, origin⟩ ∈ mappings) ∧
      map.mappings.Nodup ∧
      (map.mappings.Pairwise fun first second =>
        sortKey builder.sourceNames first.1 first.2 <
          sortKey builder.sourceNames second.1 second.2) ∧
      ∀ reordered, reordered.Perm mappings →
        ∃ other, SourceMap.ofWire (addAll { file } reordered).toWire = .ok other ∧
          ∀ entry, entry ∈ other.mappings ↔ entry ∈ map.mappings := by
  intro builder
  have hreadable : builder.Readable := readable_addAll hlines hlength
  have hordered := hreadable.pairwise_mappings_decoded
    (@nodup_sourceNames_addAll { file } List.nodup_nil mappings)
  refine ⟨builder.decoded, hreadable.ofWire_toWire, rfl, ?_, ?_, hordered, ?_⟩
  · intro generated origin
    rw [hreadable.mem_mappings_decoded, written_addAll]
  · apply hordered.imp
    rintro first second hlt rfl
    exact List.lt_irrefl _ hlt
  · intro reordered hperm
    have hother : (addAll { file } reordered).Readable :=
      readable_addAll (fun mapping hmapping => hlines mapping (hperm.mem_iff.mp hmapping))
        (hperm.length_eq ▸ hlength)
    refine ⟨_, hother.ofWire_toWire, ?_⟩
    rintro ⟨generated, origin⟩
    rw [hother.mem_mappings_decoded, hreadable.mem_mappings_decoded, written_addAll,
      written_addAll, hperm.mem_iff]

theorem mappings_ofWire_addAll_columns :
    let mappings : List Mapping := [
      ⟨⟨3, 4294967295⟩, ⟨"b.scss", ⟨4294967295, 0⟩⟩⟩,
      ⟨⟨1, 2⟩, ⟨"a.scss", ⟨1, 4294967295⟩⟩⟩,
      ⟨⟨1, 2⟩, ⟨"b.scss", ⟨1, 7⟩⟩⟩,
      ⟨⟨1, 2⟩, ⟨"a.scss", ⟨1, 4294967295⟩⟩⟩]
    (∀ mapping ∈ mappings, mapping.generated.line ≠ 0 ∧ mapping.origin.position.line ≠ 0) ∧
      mappings.length < 2 ^ 63 ∧
      ∃ map, SourceMap.ofWire (addAll { file := none } mappings).toWire = .ok map ∧
        map.sources.toList = ["b.scss", "a.scss"] ∧
        map.mappings = [
          (⟨1, 2⟩, ⟨"b.scss", ⟨1, 7⟩⟩),
          (⟨1, 2⟩, ⟨"a.scss", ⟨1, 4294967295⟩⟩),
          (⟨3, 4294967295⟩, ⟨"b.scss", ⟨4294967295, 0⟩⟩)] := by
  intro mappings
  have hlines : ∀ mapping ∈ mappings,
      mapping.generated.line ≠ 0 ∧ mapping.origin.position.line ≠ 0 := by decide
  have hlength : mappings.length < 2 ^ 63 := by decide
  obtain ⟨map, hmap, hsources, -⟩ := mappings_ofWire_addAll none mappings hlines hlength
  refine ⟨hlines, hlength, map, hmap, by rw [hsources]; decide +kernel, ?_⟩
  have hread : (SourceMap.ofWire (addAll { file := none } mappings).toWire).toOption.map
      SourceMap.mappings = some [
        (⟨1, 2⟩, ⟨"b.scss", ⟨1, 7⟩⟩),
        (⟨1, 2⟩, ⟨"a.scss", ⟨1, 4294967295⟩⟩),
        (⟨3, 4294967295⟩, ⟨"b.scss", ⟨4294967295, 0⟩⟩)] := by cbv
  rw [hmap] at hread
  exact Option.some.inj hread

end StyleSplit.MapBuilder
