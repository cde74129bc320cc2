import StyleSplit.Proofs.SourceMap.History
import StyleSplit.Proofs.SourceMap.Readings

/-! The sources and the texts that are read back from what a builder writes, on whatever
lines its entries are. -/

namespace StyleSplit

namespace SourceMap

open Segment (Reading)

variable {map : SourceMap} {wire : WireMap}

theorem source_lt_of_mem_segmentsOf (h : ofWire wire = .ok map) {line : UInt32}
    {segment : Segment map.sources.size} (hsegment : segment ∈ map.segmentsOf line)
    {origin : Origin map.sources.size} (horigin : segment.origin = some origin) :
    origin.source.val < 2 ^ 63 := by
  obtain ⟨written, hwritten, segments, hsegments, hmem⟩ := exists_mem_written h hsegment
  obtain ⟨lines, -, hrange, hnumbers⟩ :=
    Segment.readings_of_ofLines Segment.Sums.counts_nil hwritten
  have hrow : segments.map Segment.numbers ∈
      (Reading.ofLines [] lines).map (List.map Reading.numbers) :=
    hnumbers ▸ List.mem_map_of_mem hsegments
  obtain ⟨row, hreadings, hsame⟩ := List.mem_map.mp hrow
  have hshown : segment.numbers ∈ row.map Reading.numbers :=
    hsame ▸ List.mem_map_of_mem hmem
  obtain ⟨reading, hreading, hequal⟩ := List.mem_map.mp hshown
  have hmost := Int64.toInt_maxValue
  obtain ⟨-, -, ⟨-, hle, -⟩, -⟩ :=
    Reading.inRange_iff.mp (hrange row hreadings reading hreading)
  have hsource : reading.source = origin.source.val := by
    have hpoints := congrArg Prod.snd hequal
    rw [Reading.numbers, Segment.numbers, horigin] at hpoints
    dsimp only at hpoints
    split at hpoints
    · cases hpoints
    · exact congrArg (·.1) (Option.some.inj hpoints)
  omega

theorem mem_take_of_sourcePosition? (h : ofWire wire = .ok map) {position : Position}
    {origin : SourcePosition} (horigin : map.sourcePosition? position = some origin) :
    origin.source ∈ map.sources.toList.take (2 ^ 63) := by
  obtain ⟨segment, hsegment, found, hfound, rfl⟩ := exists_origin_of_sourcePosition? horigin
  have hlt := source_lt_of_mem_segmentsOf h hsegment hfound
  rw [List.mem_take_iff_getElem]
  refine ⟨found.source.val, ?_, rfl⟩
  rw [Array.length_toList]
  exact Nat.lt_min.mpr ⟨hlt, found.source.isLt⟩

end SourceMap

namespace MapBuilder

variable {builder : MapBuilder} {pen : Pen} {entry : Entry} {entries : List Entry}

def Entry.raised (entry : Entry) : Entry :=
  if entry.generated.line = 0 then
    { entry with generated := ⟨1, entry.generated.column⟩ }
  else entry

theorem Entry.toNat_line_raised (entry : Entry) :
    entry.raised.generated.line.toNat = max 1 entry.generated.line.toNat := by
  unfold raised
  split
  · rename_i hzero
    rw [hzero]
    rfl
  · rename_i hline
    have hpos : entry.generated.line.toNat ≠ 0 := fun hzero => hline (UInt32.toNat_inj.mp hzero)
    omega

theorem Entry.Readable.raised {count : Nat} (h : entry.Readable count) :
    entry.raised.Readable count := by
  unfold Entry.raised
  split
  · exact ⟨h.source_lt, h.line_ne_zero⟩
  · exact h

theorem fields_raised (pen : Pen) (entry : Entry) :
    pen.fields entry.raised = pen.fields entry := by
  unfold Entry.raised
  split <;> rfl

theorem moveTo_raised (hpen : 1 ≤ pen.line) (entry : Entry) (isFirst : Bool) :
    pen.moveTo entry.raised isFirst = pen.moveTo entry isFirst := by
  unfold Pen.moveTo
  rw [entry.toNat_line_raised]
  by_cases hline : pen.line < entry.generated.line.toNat
  · rw [Nat.max_eq_right (by omega)]
  · rw [if_neg hline, if_neg (by omega)]

theorem le_line_moveTo (pen : Pen) (entry : Entry) (isFirst : Bool) :
    pen.line ≤ (pen.moveTo entry isFirst).2.line := by
  unfold Pen.moveTo
  dsimp only
  split
  · rename_i hline
    exact Nat.le_of_lt hline
  · exact Nat.le_refl _

theorem write_raised (hpen : 1 ≤ pen.line) (isFirst : Bool) (entries : List Entry) :
    pen.write isFirst (entries.map Entry.raised) = pen.write isFirst entries := by
  induction entries generalizing pen isFirst with
  | nil => rfl
  | cons entry entries ih =>
      have hmoved : 1 ≤ ((pen.moveTo entry isFirst).2.fields entry).2.line :=
        Nat.le_trans hpen (le_line_moveTo pen entry isFirst)
      rw [List.map_cons, write_cons, write_cons, moveTo_raised hpen, Pen.digits, Pen.digits,
        fields_raised, ih hmoved]

theorem pairwise_line_raised (builder : MapBuilder) :
    (builder.sortedEntries.map Entry.raised).Pairwise fun first second =>
      first.generated.line.toNat ≤ second.generated.line.toNat := by
  rw [List.pairwise_map]
  apply (pairwise_line builder).imp
  intro first second hle
  rw [first.toNat_line_raised, second.toNat_line_raised]
  omega

/-- What a builder writes is read back without an error, with its sources and texts. -/
theorem exists_ofWire_toWire (hcount : builder.sources.size ≤ 2 ^ 63)
    (hentries : ∀ entry ∈ builder.entries, entry.Readable builder.sources.size) :
    ∃ read, SourceMap.ofWire builder.toWire = .ok read ∧ read.file = builder.file ∧
      read.sources.toList = builder.sourceNames ∧
      read.contents = builder.toWire.contents.getD [] := by
  obtain ⟨count, hsize⟩ : ∃ count, count = builder.sourceNames.toArray.size := ⟨_, rfl⟩
  have hlisted : count = builder.sources.size := by rw [hsize, size_sourceNames]
  have hreadable : ∀ entry ∈ builder.sortedEntries.map Entry.raised, entry.Readable count := by
    intro entry hentry
    obtain ⟨written, hwritten, rfl⟩ := List.mem_map.mp hentry
    exact (hlisted ▸ hentries written (mem_sortedEntries.mp hwritten)).raised
  have hlines : ∀ entry ∈ builder.sortedEntries.map Entry.raised,
      1 ≤ entry.generated.line.toNat := by
    intro entry hentry
    obtain ⟨written, -, rfl⟩ := List.mem_map.mp hentry
    rw [written.toNat_line_raised]
    exact Nat.le_max_left ..
  have hrows := resume_write Pen.agrees_start (hlisted ▸ hcount) hreadable hlines
    (pairwise_line_raised builder) true
  rw [write_raised (Nat.le_refl 1)] at hrows
  subst hsize
  exact ⟨_, SourceMap.ofWire_eq_ok rfl builder.sources_toWire (decode_toWire hrows), rfl,
    List.toList_toArray, rfl⟩

theorem Recounts.contentFor?_eq {file : Option String} {calls : List Call} {source : String}
    (h : builder.Recounts file calls) (hsource : source ∈ used calls) {read : SourceMap}
    (hsources : read.sources.toList = builder.sourceNames)
    (hcontents : read.contents = builder.toWire.contents.getD []) :
    read.contentFor? source = lastContent calls source := by
  rw [h.sourceNames_eq] at hsources
  rw [h.contents_toWire] at hcontents
  obtain ⟨index, hindex⟩ := Option.isSome_iff_exists.mp (List.isSome_idxOf?.mpr hsource)
  obtain ⟨hlt, hname, -⟩ := List.idxOf?_eq_some_iff.mp hindex
  unfold SourceMap.contentFor?
  rw [hsources]
  change ((used calls).idxOf? source).bind (fun index => (read.contents[index]?).join) = _
  rw [hindex, Option.bind_some, hcontents]
  by_cases hnone : ∀ source ∈ used calls, lastContent calls source = none
  · rw [if_pos hnone, hnone source hsource]
    rfl
  · rw [if_neg hnone, Option.getD_some, List.getElem?_map, List.getElem?_eq_getElem hlt, hname]
    rfl

end MapBuilder

end StyleSplit
