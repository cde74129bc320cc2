import StyleSplit.Proofs.SourceMap.Lookup

/-! The lines of a map that was decoded: those that are written, sorted by column. In their
origins lines count from one. -/

namespace StyleSplit

theorem bind_eq_ok {ε α β : Type} {first : Except ε α} {next : α → Except ε β} {result : β} :
    (first >>= next) = .ok result ↔ ∃ value, first = .ok value ∧ next value = .ok result := by
  cases first <;> simp [bind, Except.bind]

namespace Segment

variable {count : Nat}

def Proper (segment : Segment count) : Prop :=
  ∀ origin, segment.origin = some origin → origin.line ≠ 0

theorem Sums.line_ne_zero_of_origin {sums : Sums} {origin : Origin count}
    (h : sums.origin count = .ok origin) : origin.line ≠ 0 := by
  unfold Sums.origin at h
  split at h
  · obtain ⟨line, hline, hrest⟩ := bind_eq_ok.mp h
    obtain ⟨column, -, horigin⟩ := bind_eq_ok.mp hrest
    cases horigin
    unfold toWord at hline
    split at hline
    · rename_i hlt
      cases hline
      intro hzero
      have hnumber := congrArg UInt32.toNat hzero
      rw [UInt32.toNat_ofNat_of_lt' hlt] at hnumber
      exact Nat.succ_ne_zero _ hnumber
    · cases hline
  · cases h

theorem proper_of_origin {sums : Sums} {generated : Nat} {origin : Origin count}
    {step : Step count} (horigin : sums.origin count = .ok origin)
    (h : (do
      let word ← toWord .generatedColumn generated
      pure (⟨sums, generated, ⟨word, some origin⟩⟩ : Step count)) = .ok step) :
    step.segment.Proper := by
  obtain ⟨word, -, hstep⟩ := bind_eq_ok.mp h
  cases hstep
  intro found hfound
  cases hfound
  exact Sums.line_ne_zero_of_origin horigin

theorem proper_of_ofFields {sums : Sums} {generated : Nat} {fields : List Int64}
    {step : Step count} (h : ofFields count sums generated fields = .ok step) :
    step.segment.Proper := by
  unfold ofFields at h
  split at h
  · cases h
  · obtain ⟨column, -, hrest⟩ := bind_eq_ok.mp h
    dsimp only at hrest
    split at hrest
    · obtain ⟨_, hpair, hrest⟩ := bind_eq_ok.mp hrest
      cases hpair
      obtain ⟨word, -, hstep⟩ := bind_eq_ok.mp hrest
      cases hstep
      exact fun _ hnone => nomatch hnone
    · obtain ⟨next, -, hrest⟩ := bind_eq_ok.mp hrest
      obtain ⟨origin, horigin, hrest⟩ := bind_eq_ok.mp hrest
      exact proper_of_origin horigin hrest
    · obtain ⟨next, -, hrest⟩ := bind_eq_ok.mp hrest
      obtain ⟨origin, horigin, hrest⟩ := bind_eq_ok.mp hrest
      exact proper_of_origin horigin hrest
    · obtain ⟨_, herror, -⟩ := bind_eq_ok.mp hrest
      cases herror

theorem proper_of_ofParts {sums next : Sums} {generated : Nat} {parts : List (List Char)}
    {segments : List (Segment count)}
    (h : ofParts count sums generated parts = .ok (next, segments)) :
    ∀ segment ∈ segments, segment.Proper := by
  fun_induction ofParts count sums generated parts generalizing segments with
  | case1 =>
      cases h
      simp
  | case2 _ _ _ ih => exact ih h
  | case3 _ _ _ _ _ ih =>
      obtain ⟨fields, -, hrest⟩ := bind_eq_ok.mp h
      obtain ⟨step, hstep, hrest⟩ := bind_eq_ok.mp hrest
      obtain ⟨⟨sums, later⟩, hlater, hpair⟩ := bind_eq_ok.mp hrest
      cases hpair
      rw [List.forall_mem_cons]
      exact ⟨proper_of_ofFields hstep, ih _ hlater⟩

theorem proper_of_ofLines {sums : Sums} {lines : List (List Char)}
    {decoded : List (List (Segment count))} (h : ofLines count sums lines = .ok decoded) :
    ∀ segments ∈ decoded, ∀ segment ∈ segments, segment.Proper := by
  induction lines generalizing sums decoded with
  | nil =>
      cases h
      simp
  | cons line lines ih =>
      obtain ⟨⟨next, segments⟩, hline, hrest⟩ := bind_eq_ok.mp h
      obtain ⟨later, hlater, hdecoded⟩ := bind_eq_ok.mp hrest
      cases hdecoded
      rw [List.forall_mem_cons]
      exact ⟨proper_of_ofParts hline, ih hlater⟩

theorem decode_eq_ok_iff {mappings : String} {rows : List (List (Segment count))} :
    decode count mappings = .ok rows ↔
      ∃ decoded, ofLines count {} (Text.splitOn ';' mappings.toList) = .ok decoded ∧
        decoded.map sort = rows := by
  rw [decode]
  cases ofLines count {} (Text.splitOn ';' mappings.toList) <;> simp [Except.map]

end Segment

namespace SourceMap

variable {map : SourceMap} {wire : WireMap}

theorem exists_written (h : ofWire wire = .ok map) :
    map.sources.toList =
        wire.sources.map (fun source => joinRoot (wire.sourceRoot.getD "") (source.getD "")) ∧
      ∃ written : List (List (Segment map.sources.size)),
        Segment.ofLines map.sources.size {} (Text.splitOn ';' wire.mappings.toList) =
            .ok written ∧
          map.lines = ((written.map Segment.sort).map List.toArray).toArray := by
  unfold ofWire at h
  split at h
  · obtain ⟨lines, hlines, hmap⟩ := bind_eq_ok.mp h
    cases hmap
    obtain ⟨written, hwritten, rfl⟩ := Segment.decode_eq_ok_iff.mp hlines
    exact ⟨rfl, written, hwritten, rfl⟩
  · cases h

theorem exists_mem_written (h : ofWire wire = .ok map) {line : UInt32}
    {segment : Segment map.sources.size} (hsegment : segment ∈ map.segmentsOf line) :
    ∃ written : List (List (Segment map.sources.size)),
      Segment.ofLines map.sources.size {} (Text.splitOn ';' wire.mappings.toList) =
          .ok written ∧
        ∃ segments ∈ written, segment ∈ segments := by
  obtain ⟨-, written, hwritten, hlines⟩ := exists_written h
  rw [← Array.mem_toList_iff, toList_segmentsOf hlines] at hsegment
  obtain ⟨sorted, hsorted, hmem⟩ := exists_of_mem_row hsegment
  obtain ⟨segments, hsegments, rfl⟩ := List.mem_map.mp hsorted
  rw [Segment.sort, List.mem_mergeSort] at hmem
  exact ⟨written, hwritten, segments, hsegments, hmem⟩

theorem proper_of_mem_segmentsOf (h : ofWire wire = .ok map) {line : UInt32}
    {segment : Segment map.sources.size} (hsegment : segment ∈ map.segmentsOf line) :
    segment.Proper := by
  obtain ⟨written, hwritten, segments, hsegments, hmem⟩ := exists_mem_written h hsegment
  exact Segment.proper_of_ofLines hwritten segments hsegments segment hmem

theorem exists_origin_of_sourcePosition? {position : Position} {answer : SourcePosition}
    (h : map.sourcePosition? position = some answer) :
    ∃ segment ∈ map.segmentsOf position.line, ∃ origin,
      segment.origin = some origin ∧ map.sourcePosition origin = answer := by
  unfold sourcePosition? at h
  dsimp only at h
  split at h
  · cases h
  · obtain ⟨segment, hsegment, hrest⟩ := Option.bind_eq_some_iff.mp h
    obtain ⟨origin, horigin, hanswer⟩ := Option.map_eq_some_iff.mp hrest
    exact ⟨segment, Array.mem_of_getElem? hsegment, origin, horigin, hanswer⟩

theorem line_ne_zero_of_sourcePosition? (h : ofWire wire = .ok map) {position : Position}
    {origin : SourcePosition} (horigin : map.sourcePosition? position = some origin) :
    origin.position.line ≠ 0 := by
  obtain ⟨segment, hsegment, found, hfound, rfl⟩ := exists_origin_of_sourcePosition? horigin
  exact proper_of_mem_segmentsOf h hsegment found hfound

end SourceMap

end StyleSplit
