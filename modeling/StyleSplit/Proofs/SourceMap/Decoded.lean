import StyleSplit.Proofs.SourceMap.Entries
import StyleSplit.Proofs.SourceMap.Lookup
import StyleSplit.Proofs.SourceMap.Writer

/-! The map that is read back from what a builder writes, and what it answers. -/

namespace StyleSplit

theorem SourceMap.ofWire_eq_ok {wire : WireMap} {sources : List String}
    {lines : List (List (Segment sources.toArray.size))} (hversion : wire.version = 3)
    (hsources : wire.sources.map (fun source =>
      joinRoot (wire.sourceRoot.getD "") (source.getD "")) = sources)
    (hlines : Segment.decode sources.toArray.size wire.mappings = .ok lines) :
    ofWire wire = .ok ⟨wire.file, sources.toArray, wire.contents.getD [],
      (lines.map List.toArray).toArray⟩ := by
  subst hsources
  rw [ofWire, if_pos hversion]
  dsimp only
  rw [hlines]
  rfl

namespace MapBuilder

variable {builder : MapBuilder}

def Readable (builder : MapBuilder) : Prop :=
  builder.sources.size < 2 ^ 63 ∧ ∀ entry ∈ builder.entries,
    entry.generated.line ≠ 0 ∧ entry.Readable builder.sources.size

def decoded (builder : MapBuilder) : SourceMap where
  file := builder.file
  sources := builder.sourceNames.toArray
  contents := builder.toWire.contents.getD []
  lines :=
    ((rows builder.sourceNames.toArray.size 1 builder.sortedEntries).map List.toArray).toArray

def origin (builder : MapBuilder) (entry : Entry) : SourcePosition :=
  ⟨builder.sourceNames.getD entry.source "", entry.origin⟩

theorem length_sourceNames (builder : MapBuilder) :
    builder.sourceNames.length = builder.sources.size := by
  simp [sourceNames]

theorem size_sourceNames (builder : MapBuilder) :
    builder.sourceNames.toArray.size = builder.sources.size :=
  builder.length_sourceNames

theorem pairwise_line (builder : MapBuilder) :
    builder.sortedEntries.Pairwise fun first second =>
      first.generated.line.toNat ≤ second.generated.line.toNat := by
  apply (pairwise_sortedEntries builder).imp
  intro first second hle
  have hgenerated := Position.le_iff.mp (Entry.generated_le hle)
  omega

theorem pairwise_column (builder : MapBuilder) (count : Nat) (line : Nat) :
    ((builder.sortedEntries.filter (·.generated.line.toNat = line)).map
      (Entry.segment count)).Pairwise fun first second => first.column ≤ second.column := by
  rw [List.pairwise_map, List.pairwise_filter]
  apply (pairwise_sortedEntries builder).imp
  intro first second hle hfirst hsecond
  rw [decide_eq_true_iff] at hfirst hsecond
  have hgenerated := Position.le_iff.mp (Entry.generated_le hle)
  change first.generated.column ≤ second.generated.column
  rw [UInt32.le_iff_toNat_le]
  omega

theorem Readable.le_line (h : builder.Readable) :
    ∀ entry ∈ builder.sortedEntries, 1 ≤ entry.generated.line.toNat := by
  intro entry hentry
  obtain ⟨hline, -⟩ := h.2 entry (mem_sortedEntries.mp hentry)
  rw [Nat.one_le_iff_ne_zero]
  exact fun hzero => hline (UInt32.toNat_inj.mp hzero)

theorem Readable.map_sort_rows (h : builder.Readable) (count : Nat) :
    (rows count 1 builder.sortedEntries).map Segment.sort =
      rows count 1 builder.sortedEntries := by
  refine (List.map_congr_left fun row hrow => ?_).trans (List.map_id _)
  obtain ⟨place, hplace⟩ := List.mem_iff_getElem?.mp hrow
  have hgetD : (rows count 1 builder.sortedEntries).getD place [] = _ :=
    getD_rows h.le_line (pairwise_line builder) place
  rw [List.getD_eq_getElem?_getD, hplace, Option.getD_some] at hgetD
  rw [hgetD, Segment.sort, List.mergeSort_of_pairwise, id_eq]
  simpa using pairwise_column builder count (1 + place)

theorem Pen.agrees_start : Pen.Agrees {} {} 0 :=
  ⟨rfl, rfl, rfl, rfl, by decide, by decide, by decide, by decide⟩

theorem decode_toWire {count : Nat} {rows : List (List (Segment count))}
    (h : Segment.resume count {} 0 (Pen.write {} true builder.sortedEntries) = .ok rows) :
    Segment.decode count builder.toWire.mappings = .ok (rows.map Segment.sort) := by
  change (Segment.ofLines _ {} (Text.splitOn ';'
    (String.ofList (Pen.write {} true builder.sortedEntries)).toList)).map _ = _
  rw [String.toList_ofList, Segment.ofLines_splitOn, h]
  rfl

theorem sources_toWire (builder : MapBuilder) :
    builder.toWire.sources.map (fun source =>
      SourceMap.joinRoot (builder.toWire.sourceRoot.getD "") (source.getD "")) =
        builder.sourceNames := by
  change (builder.sourceNames.map some).map _ = _
  rw [List.map_map]
  exact List.map_id' _

theorem Readable.decode_mappings (h : builder.Readable) :
    Segment.decode builder.sourceNames.toArray.size builder.toWire.mappings =
      .ok (rows builder.sourceNames.toArray.size 1 builder.sortedEntries) := by
  have hentries : ∀ entry ∈ builder.sortedEntries,
      entry.Readable builder.sourceNames.toArray.size := by
    intro entry hentry
    rw [size_sourceNames]
    exact (h.2 entry (mem_sortedEntries.mp hentry)).2
  have hcount : builder.sourceNames.toArray.size ≤ 2 ^ 63 := by
    rw [size_sourceNames]
    exact Nat.le_of_lt h.1
  have hrows := resume_write Pen.agrees_start hcount hentries h.le_line
    (pairwise_line builder) true
  rw [decode_toWire hrows]
  exact congrArg Except.ok (h.map_sort_rows _)

/-- What a builder writes is read back without an error. -/
theorem Readable.ofWire_toWire (h : builder.Readable) :
    SourceMap.ofWire builder.toWire = .ok builder.decoded :=
  SourceMap.ofWire_eq_ok rfl builder.sources_toWire h.decode_mappings

theorem Readable.segmentsOf_decoded (h : builder.Readable) {line : UInt32} (hline : line ≠ 0) :
    (builder.decoded.segmentsOf line).toList =
      (builder.sortedEntries.filter (·.generated.line = line)).map
        (Entry.segment builder.decoded.sources.size) := by
  have hpos : line.toNat ≠ 0 := fun hzero => hline (UInt32.toNat_inj.mp hzero)
  have hrow : (rows builder.sourceNames.toArray.size 1 builder.sortedEntries).getD
      (line.toNat - 1) [] = _ :=
    getD_rows h.le_line (pairwise_line builder) (line.toNat - 1)
  rw [Nat.add_sub_cancel' (Nat.pos_of_ne_zero hpos)] at hrow
  simp only [UInt32.toNat_inj] at hrow
  have hlines : builder.decoded.lines = ((rows builder.decoded.sources.size 1
    builder.sortedEntries).map List.toArray).toArray := rfl
  rw [SourceMap.toList_segmentsOf hlines, SourceMap.row, if_neg hline]
  exact hrow

theorem Readable.sourcePosition_segment (h : builder.Readable) {entry : Entry}
    (hentry : entry ∈ builder.sortedEntries) :
    (entry.segment builder.decoded.sources.size).origin.map builder.decoded.sourcePosition =
      some (builder.origin entry) := by
  have hsource : entry.source < builder.sourceNames.toArray.size := by
    rw [size_sourceNames]
    exact (h.2 entry (mem_sortedEntries.mp hentry)).2.source_lt
  have hsegment : (entry.segment builder.decoded.sources.size).origin =
      some ⟨⟨entry.source, hsource⟩, entry.origin.line, entry.origin.column⟩ :=
    dif_pos hsource
  rw [hsegment, Option.map_some, origin, SourceMap.sourcePosition]
  congr 2
  change builder.sourceNames.toArray[entry.source] = _
  rw [List.getElem_toArray, List.getD_eq_getElem]

theorem Readable.sourcePosition?_decoded (h : builder.Readable) (position : Position) :
    builder.decoded.sourcePosition? position =
      ((builder.sortedEntries.filter fun entry =>
        entry.generated.line = position.line ∧
          entry.generated.column ≤ position.column).getLast?).map builder.origin := by
  by_cases hline : position.line = 0
  · have hnone : builder.sortedEntries.filter (fun entry =>
        entry.generated.line = position.line ∧
          entry.generated.column ≤ position.column) = [] := by
      rw [List.filter_eq_nil_iff]
      intro entry hentry hholds
      have hholds := of_decide_eq_true hholds
      exact (h.2 entry (mem_sortedEntries.mp hentry)).1 (hholds.1.trans hline)
    rw [hnone, SourceMap.sourcePosition?_of_line_eq_zero hline]
    rfl
  · have hsegments := h.segmentsOf_decoded hline
    have hsorted := pairwise_column builder builder.decoded.sources.size position.line.toNat
    simp only [UInt32.toNat_inj] at hsorted
    rw [← hsegments] at hsorted
    rw [SourceMap.sourcePosition?_eq_getLast? hsorted, hsegments, List.filter_map,
      List.filter_filter, List.getLast?_map]
    have hfilter : builder.sortedEntries.filter (fun entry =>
        ((fun segment : Segment builder.decoded.sources.size =>
          decide (segment.column ≤ position.column)) ∘ Entry.segment _) entry &&
            decide (entry.generated.line = position.line)) =
        builder.sortedEntries.filter fun entry =>
          entry.generated.line = position.line ∧
            entry.generated.column ≤ position.column := by
      apply List.filter_congr
      intro entry _
      rw [Function.comp_apply, Bool.and_comm, Bool.decide_and]
      rfl
    rw [hfilter]
    cases hlast : (builder.sortedEntries.filter fun entry =>
        decide (entry.generated.line = position.line ∧
          entry.generated.column ≤ position.column)).getLast? with
    | none => rfl
    | some entry =>
        exact h.sourcePosition_segment (List.mem_filter.mp (List.mem_of_getLast? hlast)).1

end MapBuilder

end StyleSplit
