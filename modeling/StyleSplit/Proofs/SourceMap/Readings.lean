import StyleSplit.Proofs.SourceMap.Sums

/-! A map is decoded when and only when the sums at all of its segments are in range, and
then holds exactly these sums, line by line. -/

namespace StyleSplit

namespace Segment

variable {count : Nat}

theorem mapM_cons_eq_some_iff {α β : Type} {f : α → Option β} {first : α} {elements : List α}
    {results : List β} :
    (first :: elements).mapM f = some results ↔
      ∃ result rest, f first = some result ∧ elements.mapM f = some rest ∧
        results = result :: rest := by
  rw [List.mapM_cons]
  cases f first <;> cases elements.mapM f <;> simp [eq_comm]

/-- The fields of the parts of one line. Empty parts are no segments. -/
def partFields? (parts : List (List Char)) : Option (List (List Int64)) :=
  (parts.filter (· ≠ [])).mapM fun part => (decodeFields part).toOption

theorem partFields?_cons_eq_some_iff {part : List Char} {parts : List (List Char)}
    {line : List (List Int64)} (hpart : part ≠ []) :
    partFields? (part :: parts) = some line ↔
      ∃ fields rest, decodeFields part = .ok fields ∧ partFields? parts = some rest ∧
        line = fields :: rest := by
  have hkept : (part :: parts).filter (fun part => decide (part ≠ [])) =
      part :: parts.filter fun part => decide (part ≠ []) :=
    List.filter_cons_of_pos (decide_eq_true hpart)
  rw [partFields?, hkept, mapM_cons_eq_some_iff]
  cases decodeFields part <;> simp [Except.toOption, partFields?]

theorem readings_of_ofParts {sums next : Sums} {before first : List (List Int64)}
    {generated : Nat} {parts : List (List Char)} {segments : List (Segment count)}
    (hsums : sums.Counts (before ++ first)) (hgenerated : (generated : Int) = total 0 first)
    (h : ofParts count sums generated parts = .ok (next, segments)) :
    ∃ rest, partFields? parts = some rest ∧
      (∀ reading ∈ Reading.ofLine before first rest, reading.InRange count) ∧
      segments.map numbers = (Reading.ofLine before first rest).map Reading.numbers ∧
      next.Counts (before ++ (first ++ rest)) := by
  fun_induction ofParts count sums generated parts generalizing first segments with
  | case1 sums generated =>
      cases h
      rw [← List.append_nil first] at hsums
      exact ⟨[], rfl, List.forall_mem_nil _, rfl, hsums⟩
  | case2 sums generated parts ih => exact ih hsums hgenerated h
  | case3 sums generated part parts hpart ih =>
      obtain ⟨fields, hfields, hrest⟩ := bind_eq_ok.mp h
      obtain ⟨step, hstep, hrest⟩ := bind_eq_ok.mp hrest
      obtain ⟨⟨last, later⟩, hlater, hpair⟩ := bind_eq_ok.mp hrest
      cases hpair
      obtain ⟨hrange, hshows⟩ := (ofFields_eq_ok_iff hsums hgenerated).mp hstep
      obtain ⟨rest, hparts, hranges, hnumbers, hlast⟩ :=
        ih step (hshows.counts hrange) hshows.generated hlater
      refine ⟨fields :: rest, (partFields?_cons_eq_some_iff hpart).mpr
        ⟨fields, rest, hfields, hparts, rfl⟩, List.forall_mem_cons.mpr ⟨hrange, hranges⟩, ?_, ?_⟩
      · rw [List.map_cons, hshows.numbers, hnumbers]
        rfl
      · rwa [List.append_assoc first, List.singleton_append] at hlast

theorem exists_ofParts {sums : Sums} {before first rest : List (List Int64)}
    {generated : Nat} {parts : List (List Char)}
    (hsums : sums.Counts (before ++ first)) (hgenerated : (generated : Int) = total 0 first)
    (hparts : partFields? parts = some rest)
    (hrange : ∀ reading ∈ Reading.ofLine before first rest, reading.InRange count) :
    ∃ result : Sums × List (Segment count), ofParts count sums generated parts = .ok result := by
  fun_induction ofParts count sums generated parts generalizing first rest with
  | case1 sums generated => exact ⟨_, rfl⟩
  | case2 sums generated parts ih => exact ih hsums hgenerated hparts hrange
  | case3 sums generated part parts hpart ih =>
      obtain ⟨fields, later, hfields, hlater, rfl⟩ :=
        (partFields?_cons_eq_some_iff hpart).mp hparts
      obtain ⟨hhere, hthere⟩ := List.forall_mem_cons.mp hrange
      obtain ⟨step, hshows⟩ := hhere.exists_shows
      have hstep := (ofFields_eq_ok_iff hsums hgenerated).mpr ⟨hhere, hshows⟩
      obtain ⟨result, hresult⟩ := ih step (hshows.counts hhere) hshows.generated hlater hthere
      refine ⟨(result.1, step.segment :: result.2), ?_⟩
      rw [hfields]
      change (ofFields count sums generated fields >>= _) = _
      rw [hstep]
      change (ofParts count step.sums step.generated parts >>= _) = _
      rw [hresult]
      rfl

def fields? (lines : List (List Char)) : Option (List (List (List Int64))) :=
  lines.mapM fun line => partFields? (Text.splitOn ',' line)

theorem fields?_cons_eq_some_iff {text : List Char} {texts : List (List Char)}
    {lines : List (List (List Int64))} :
    fields? (text :: texts) = some lines ↔
      ∃ line rest, partFields? (Text.splitOn ',' text) = some line ∧
        fields? texts = some rest ∧ lines = line :: rest :=
  mapM_cons_eq_some_iff

theorem readings_of_ofLines {sums : Sums} {before : List (List Int64)}
    {texts : List (List Char)} {decoded : List (List (Segment count))}
    (hsums : sums.Counts before) (h : ofLines count sums texts = .ok decoded) :
    ∃ lines, fields? texts = some lines ∧
      (∀ row ∈ Reading.ofLines before lines, ∀ reading ∈ row, reading.InRange count) ∧
      decoded.map (List.map numbers) =
        (Reading.ofLines before lines).map (List.map Reading.numbers) := by
  induction texts generalizing sums before decoded with
  | nil =>
      cases h
      exact ⟨[], rfl, List.forall_mem_nil _, rfl⟩
  | cons text texts ih =>
      obtain ⟨⟨next, segments⟩, hline, hrest⟩ := bind_eq_ok.mp h
      obtain ⟨later, hlater, hdecoded⟩ := bind_eq_ok.mp hrest
      cases hdecoded
      rw [← List.append_nil before] at hsums
      obtain ⟨line, hfields, hrange, hnumbers, hnext⟩ := readings_of_ofParts hsums rfl hline
      obtain ⟨lines, htexts, hranges, hrows⟩ := ih hnext hlater
      refine ⟨line :: lines, fields?_cons_eq_some_iff.mpr ⟨line, lines, hfields, htexts, rfl⟩,
        List.forall_mem_cons.mpr ⟨hrange, hranges⟩, ?_⟩
      rw [List.map_cons, hnumbers, hrows]
      rfl

theorem exists_ofLines {sums : Sums} {before : List (List Int64)}
    {texts : List (List Char)} {lines : List (List (List Int64))}
    (hsums : sums.Counts before) (htexts : fields? texts = some lines)
    (hrange : ∀ row ∈ Reading.ofLines before lines, ∀ reading ∈ row, reading.InRange count) :
    ∃ decoded : List (List (Segment count)), ofLines count sums texts = .ok decoded := by
  induction texts generalizing sums before lines with
  | nil => exact ⟨[], rfl⟩
  | cons text texts ih =>
      obtain ⟨line, rest, hline, hrest, rfl⟩ := fields?_cons_eq_some_iff.mp htexts
      obtain ⟨hhere, hthere⟩ := List.forall_mem_cons.mp hrange
      rw [← List.append_nil before] at hsums
      obtain ⟨⟨next, segments⟩, hsegments⟩ := exists_ofParts hsums rfl hline hhere
      obtain ⟨read, hread, -, -, hnext⟩ := readings_of_ofParts hsums rfl hsegments
      cases Option.some.inj (hline.symm.trans hread)
      obtain ⟨later, hlater⟩ := ih hnext hrest hthere
      refine ⟨segments :: later, ?_⟩
      change (ofParts count sums 0 (Text.splitOn ',' text) >>= _) = _
      rw [hsegments]
      change (ofLines count next texts >>= _) = _
      rw [hlater]
      rfl

/-- In the order of their columns, where those of one column keep their order. -/
structure StablySorted {α : Type} (sorted written : List (Int × α)) : Prop where
  ordered : sorted.Pairwise fun first second => first.1 ≤ second.1
  stable : ∀ column, sorted.filter (·.1 = column) = written.filter (·.1 = column)

theorem perm_sort (segments : List (Segment count)) : (sort segments).Perm segments :=
  List.mergeSort_perm ..

theorem pairwise_column_sort (segments : List (Segment count)) :
    (sort segments).Pairwise fun first second => first.column ≤ second.column :=
  (List.pairwise_mergeSort (by simpa using fun _ _ _ => UInt32.le_trans)
    (by simpa using fun _ _ => UInt32.le_total _ _) segments).imp of_decide_eq_true

theorem pairwise_sort (segments : List (Segment count)) :
    (sort segments).Pairwise fun first second => first.numbers.1 ≤ second.numbers.1 :=
  (pairwise_column_sort segments).imp fun hle =>
    Int.ofNat_le.mpr (UInt32.le_iff_toNat_le.mp hle)

theorem filter_sort_of_le {segments : List (Segment count)} {p : Segment count → Bool}
    (hp : ∀ first ∈ segments, ∀ second ∈ segments, p first = true → p second = true →
      first.column ≤ second.column) :
    (sort segments).filter p = segments.filter p := by
  have hpairwise : (segments.filter p).Pairwise fun first second =>
      decide (first.column ≤ second.column) = true := by
    apply List.pairwise_of_forall_mem_list
    intro first hfirst second hsecond
    obtain ⟨hfirst, hholds⟩ := List.mem_filter.mp hfirst
    obtain ⟨hsecond, halso⟩ := List.mem_filter.mp hsecond
    exact decide_eq_true (hp first hfirst second hsecond hholds halso)
  have hsublist : (segments.filter p).Sublist (sort segments) :=
    List.sublist_mergeSort (by simpa using fun _ _ _ => UInt32.le_trans)
      (by simpa using fun _ _ => UInt32.le_total _ _) hpairwise List.filter_sublist
  have hfiltered := hsublist.filter p
  rw [List.filter_filter] at hfiltered
  simp only [Bool.and_self] at hfiltered
  have hlength := ((perm_sort segments).filter p).length_eq
  exact (hfiltered.eq_of_length hlength.symm).symm

theorem filter_sort (segments : List (Segment count)) (column : Int) :
    (sort segments).filter (·.numbers.1 = column) =
      segments.filter (·.numbers.1 = column) := by
  apply filter_sort_of_le
  intro first _ second _ hfirst hsecond
  have hsame : first.numbers.1 = second.numbers.1 :=
    (of_decide_eq_true hfirst).trans (of_decide_eq_true hsecond).symm
  rw [UInt32.le_iff_toNat_le]
  exact Nat.le_of_eq (Int.ofNat_inj.mp hsame)

theorem stablySorted_sort (segments : List (Segment count)) :
    StablySorted ((sort segments).map numbers) (segments.map numbers) := by
  constructor
  · rw [List.pairwise_map]
    exact pairwise_sort segments
  · intro column
    rw [List.filter_map, List.filter_map]
    exact congrArg (List.map numbers) (filter_sort segments column)

theorem Reading.countP_ofLine (before first line : List (List Int64)) :
    (ofLine before first line).countP (·.numbers.2.isSome) =
      line.countP (·.length ≠ 1) := by
  induction line generalizing first with
  | nil => rfl
  | cons fields line ih =>
      have hsome : (of before (first ++ [fields]) fields).numbers.2.isSome =
          decide (fields.length ≠ 1) := by
        rw [Reading.numbers]
        by_cases hone : fields.length = 1 <;> simp [Reading.of, hone]
      rw [ofLine, List.countP_cons, List.countP_cons, ih, hsome]

theorem Reading.countP_ofLines (before : List (List Int64))
    (lines : List (List (List Int64))) :
    (ofLines before lines).flatten.countP (·.numbers.2.isSome) =
      lines.flatten.countP (·.length ≠ 1) := by
  induction lines generalizing before with
  | nil => rfl
  | cons line lines ih =>
      rw [ofLines, List.flatten_cons, List.flatten_cons, List.countP_append,
        List.countP_append, countP_ofLine, ih]

theorem countP_origin (segments : List (Segment count)) :
    segments.countP (·.origin.isSome) = (segments.map numbers).countP (·.2.isSome) := by
  rw [List.countP_map]
  apply List.countP_congr
  intro segment _
  simp [numbers]

/-- Mappings are decoded when and only when every part has one, four or five fields and
all sums are in range, and then to these sums. -/
theorem decode_readings {mappings : String} :
    ((∃ rows : List (List (Segment count)), decode count mappings = .ok rows) ↔
      ∃ lines, fields? (Text.splitOn ';' mappings.toList) = some lines ∧
        ∀ row ∈ Reading.ofLines [] lines, ∀ reading ∈ row, reading.InRange count) ∧
    ∀ (rows : List (List (Segment count))) (lines : List (List (List Int64))),
      decode count mappings = .ok rows →
      fields? (Text.splitOn ';' mappings.toList) = some lines →
      List.Forall₂ StablySorted (rows.map (List.map numbers))
        ((Reading.ofLines [] lines).map (List.map Reading.numbers)) ∧
      rows.flatten.countP (·.origin.isSome) = lines.flatten.countP (·.length ≠ 1) := by
  simp only [decode_eq_ok_iff]
  refine ⟨⟨?_, ?_⟩, ?_⟩
  · rintro ⟨_, decoded, hdecoded, -⟩
    obtain ⟨lines, hlines, hrange, -⟩ := readings_of_ofLines Sums.counts_nil hdecoded
    exact ⟨lines, hlines, hrange⟩
  · rintro ⟨lines, hlines, hrange⟩
    obtain ⟨decoded, hdecoded⟩ := exists_ofLines Sums.counts_nil hlines hrange
    exact ⟨_, decoded, hdecoded, rfl⟩
  · rintro _ lines ⟨decoded, hdecoded, rfl⟩ hlines
    obtain ⟨read, hread, -, hnumbers⟩ := readings_of_ofLines Sums.counts_nil hdecoded
    cases Option.some.inj (hlines.symm.trans hread)
    constructor
    · rw [← hnumbers, List.map_map, List.forall₂_map_left_iff, List.forall₂_map_right_iff,
        List.forall₂_same]
      exact fun segments _ => stablySorted_sort segments
    · have hrows : ((decoded.map sort).map (List.countP (·.origin.isSome))) =
          ((decoded.map (List.map numbers)).map (List.countP (·.2.isSome))) := by
        rw [List.map_map, List.map_map]
        apply List.map_congr_left
        intro segments _
        rw [Function.comp_apply, Function.comp_apply, ← countP_origin]
        exact (perm_sort segments).countP_eq _
      rw [← Reading.countP_ofLines [], List.countP_flatten, List.countP_flatten, hrows, hnumbers,
        List.map_map]
      congr 1
      apply List.map_congr_left
      intro row _
      rw [Function.comp_apply, List.countP_map]
      rfl

end Segment

namespace SourceMap

open Segment (Reading StablySorted)

theorem mappingCount_eq (map : SourceMap) :
    map.mappingCount =
      ((map.lines.toList.map Array.toList).flatten.countP (·.origin.isSome)) := by
  rw [mappingCount, origins, List.length_flatMap, List.countP_flatten, List.map_map]
  conv_rhs => rw [← List.zipIdx_map_fst 0 map.lines.toList, List.map_map]
  congr 1
  apply List.map_congr_left
  rintro ⟨segments, row⟩ _
  rw [List.length_filterMap_eq_countP]
  apply List.countP_congr
  intro segment _
  rw [Option.isSome_map]

/-- A map is read when and only when every part that is not empty has one, four or five
fields and all sums are in range. Its lines then hold exactly these sums, sorted by their
columns. -/
theorem sums_ofWire {wire : WireMap} (hversion : wire.version = 3) :
    ((∃ map, ofWire wire = .ok map) ↔
      ∃ lines, Segment.fields? (Text.splitOn ';' wire.mappings.toList) = some lines ∧
        ∀ row ∈ Reading.ofLines [] lines, ∀ reading ∈ row,
          reading.InRange wire.sources.length) ∧
    ∀ map lines, ofWire wire = .ok map →
      Segment.fields? (Text.splitOn ';' wire.mappings.toList) = some lines →
      List.Forall₂ StablySorted
        (map.lines.toList.map fun segments => segments.toList.map Segment.numbers)
        ((Reading.ofLines [] lines).map (List.map Reading.numbers)) ∧
      map.mappingCount = lines.flatten.countP (·.length ≠ 1) := by
  obtain ⟨sources, hsources⟩ : ∃ sources, sources = (wire.sources.map fun source =>
      joinRoot (wire.sourceRoot.getD "") (source.getD "")).toArray := ⟨_, rfl⟩
  have hcount : sources.size = wire.sources.length := by
    rw [hsources]
    exact List.length_map ..
  have hwire : ofWire wire = (Segment.decode sources.size wire.mappings).map fun rows =>
      ⟨wire.file, sources, wire.contents.getD [], (rows.map List.toArray).toArray⟩ := by
    subst hsources
    rw [ofWire, if_pos hversion]
    change (Segment.decode _ _ >>= _) = _
    cases Segment.decode _ wire.mappings <;> rfl
  obtain ⟨hdecoded, hreadings⟩ := @Segment.decode_readings sources.size wire.mappings
  rw [hwire, ← hcount, ← hdecoded]
  constructor
  · cases Segment.decode sources.size wire.mappings <;> simp [Except.map]
  · intro map lines hmap hlines
    cases hrows : Segment.decode sources.size wire.mappings with
    | error =>
        rw [hrows] at hmap
        cases hmap
    | ok rows =>
        rw [hrows] at hmap
        cases hmap
        obtain ⟨hsorted, hcounted⟩ := hreadings rows lines hrows hlines
        have hkept : (rows.map List.toArray).toArray.toList.map Array.toList = rows := by
          rw [List.toList_toArray, List.map_map]
          exact List.map_id rows
        refine ⟨?_, ?_⟩
        · rw [← hkept, List.map_map] at hsorted
          exact hsorted
        · rw [mappingCount_eq, hkept]
          exact hcounted

theorem sums_ofWire_sorted :
    let wire : WireMap :=
      { version := 3, sources := [some "a.scss"], mappings := "EAAE,DAAAC;A,,CACD" }
    wire.version = 3 ∧ ∃ map, ofWire wire = .ok map ∧ map.mappingCount = 3 ∧
      (map.lines.toList.map fun segments => segments.toList.map Segment.numbers) =
        [[(1, some (0, 1, 2)), (2, some (0, 1, 2))], [(0, none), (1, some (0, 2, 1))]] := by
  intro wire
  obtain ⟨hexists, hreadings⟩ := @sums_ofWire wire rfl
  have hfields : Segment.fields? (Text.splitOn ';' wire.mappings.toList) =
      some [[[2, 0, 0, 2], [-1, 0, 0, 0, 1]], [[0], [1, 0, 1, -1]]] := by cbv
  obtain ⟨map, hmap⟩ := hexists.mpr ⟨_, hfields, by decide⟩
  obtain ⟨-, hcount⟩ := hreadings map _ hmap hfields
  refine ⟨rfl, map, hmap, hcount, ?_⟩
  have hread : (ofWire wire).toOption.map (fun map =>
      map.lines.toList.map fun segments => segments.toList.map Segment.numbers) =
      some [[(1, some (0, 1, 2)), (2, some (0, 1, 2))], [(0, none), (1, some (0, 2, 1))]] := by
    cbv
  rw [hmap] at hread
  exact Option.some.inj hread

end SourceMap

end StyleSplit
