import StyleSplit.Proofs.SourceMap.Readings

/-! What a map answers in either direction is what going through all of its segments or
mappings finds. -/

namespace StyleSplit

section Columns

variable {α β : Type} {beats : α → α → Bool}

/-- The candidates that no other one beats, in their order. -/
def unbeaten (beats : α → α → Bool) (candidates : List α) : List α :=
  candidates.filter fun x => candidates.all fun other => !beats other x

def rightmost (column : α → UInt32) : List α → List α :=
  unbeaten fun first second => column second < column first

def leftmost (column : α → UInt32) : List α → List α :=
  unbeaten fun first second => column first < column second

theorem unbeaten_map (beats : β → β → Bool) (f : α → β) (candidates : List α) :
    unbeaten beats (candidates.map f) =
      (unbeaten (fun first second => beats (f first) (f second)) candidates).map f := by
  simp only [unbeaten, List.filter_map, List.all_map]
  rfl

theorem unbeaten_concat {candidates : List α} {x : α} (hx : beats x x = false) :
    unbeaten beats (candidates ++ [x]) =
      (unbeaten beats candidates).filter (fun other => !beats x other) ++
        if candidates.all (fun other => !beats other x) then [x] else [] := by
  unfold unbeaten
  rw [List.filter_append, List.filter_filter]
  congr 1
  · apply List.filter_congr
    intro other _
    rw [List.all_append, List.all_cons, List.all_nil, Bool.and_true, Bool.and_comm]
  · rw [List.filter_cons]
    simp [hx]

theorem getLast?_of_pairwise {column : α → UInt32} {elements : List α}
    (hsorted : elements.Pairwise fun first second => column first ≤ column second) :
    elements.getLast? = (rightmost column elements).getLast? := by
  rcases List.eq_nil_or_concat elements with rfl | ⟨before, last, rfl⟩
  · rfl
  · rw [List.concat_eq_append] at hsorted ⊢
    have hall : before.all (fun other => !decide (column last < column other)) = true := by
      rw [List.all_eq_true]
      intro other hother
      have hle := (List.pairwise_append.mp hsorted).2.2 other hother last List.mem_cons_self
      simpa using hle
    rw [rightmost, unbeaten_concat (by simp), hall]
    simp

namespace SourceMap

theorem best_concat (candidates : List α) (x : α) :
    best beats (candidates ++ [x]) =
      some (match best beats candidates with
        | none => x
        | some found => if beats x found then x else found) := by
  rw [best, List.foldl_concat]
  change (match best beats candidates with
    | none => some x
    | some found => some (if beats x found then x else found)) = _
  cases best beats candidates <;> rfl

theorem best_eq_none_iff {candidates : List α} :
    best beats candidates = none ↔ candidates = [] := by
  rcases List.eq_nil_or_concat candidates with rfl | ⟨first, x, rfl⟩
  · exact iff_of_true rfl rfl
  · rw [List.concat_eq_append, best_concat]
    simp

/-- A running best that is replaced only when it is beaten ends at the first candidate that
no other one beats. -/
theorem best_eq_head? (hasymm : ∀ x y, beats x y = true → beats y x = false)
    (htrans : ∀ x y z, beats x y = false → beats y z = false → beats x z = false)
    (candidates : List α) : best beats candidates = (unbeaten beats candidates).head? := by
  have hirrefl : ∀ x, beats x x = false := by
    intro x
    cases hx : beats x x with
    | false => rfl
    | true => exact hx.symm.trans (hasymm x x hx)
  induction candidates using List.reverseRecOn with
  | nil => rfl
  | append_singleton candidates x ih =>
      rw [best_concat, unbeaten_concat (hirrefl x)]
      cases hbest : best beats candidates with
      | none =>
          rw [best_eq_none_iff.mp hbest]
          rfl
      | some found =>
          rw [hbest] at ih
          obtain ⟨rest, hrest⟩ : ∃ rest, unbeaten beats candidates = found :: rest :=
            List.head?_eq_some_iff.mp ih.symm
          have hfound : ∀ other ∈ candidates, beats other found = false := by
            have hmem : found ∈ unbeaten beats candidates := hrest ▸ List.mem_cons_self
            simpa using (List.mem_filter.mp hmem).2
          cases hx : beats x found with
          | false =>
              rw [hrest, List.filter_cons_of_pos (by simp [hx])]
              simp [hx]
          | true =>
              have hnone :
                  (unbeaten beats candidates).filter (fun other => !beats x other) = [] := by
                rw [List.filter_eq_nil_iff]
                intro other hother hleft
                rw [Bool.not_eq_true'] at hleft
                have hbehind := htrans _ _ _ hleft (hfound other (List.mem_filter.mp hother).1)
                rw [hx] at hbehind
                cases hbehind
              have hall : candidates.all (fun other => !beats other x) = true := by
                rw [List.all_eq_true]
                intro other hother
                rw [htrans _ _ _ (hfound other hother) (hasymm _ _ hx)]
                rfl
              rw [hnone, hall]
              simp [hx]

theorem best_eq_rightmost (column : α → UInt32) (candidates : List α) :
    best (fun first second => column second < column first) candidates =
      (rightmost column candidates).head? := by
  apply best_eq_head?
  · intro x y hlt
    simpa using UInt32.le_of_lt (of_decide_eq_true hlt)
  · intro x y z hxy hyz
    simp only [decide_eq_false_iff_not, UInt32.not_lt] at hxy hyz ⊢
    exact UInt32.le_trans hxy hyz

theorem best_eq_leftmost (column : α → UInt32) (candidates : List α) :
    best (fun first second => column first < column second) candidates =
      (leftmost column candidates).head? := by
  apply best_eq_head?
  · intro x y hlt
    simpa using UInt32.le_of_lt (of_decide_eq_true hlt)
  · intro x y z hxy hyz
    simp only [decide_eq_false_iff_not, UInt32.not_lt] at hxy hyz ⊢
    exact UInt32.le_trans hyz hxy

end SourceMap

end Columns

namespace SourceMap

variable {map : SourceMap} {source : String}

theorem source_eq_iff (hnodup : map.sources.toList.Nodup) {index : Nat}
    (hindex : map.sources.toList.findIdx? (· == source) = some index)
    (origin : Origin map.sources.size) :
    (map.sourcePosition origin).source = source ↔ origin.source.val = index := by
  obtain ⟨hlt, hsource, -⟩ := List.findIdx?_eq_some_iff_getElem.mp hindex
  have hbound : origin.source.val < map.sources.toList.length := origin.source.isLt
  have hinj : map.sources.toList[origin.source.val] = map.sources.toList[index] ↔
      origin.source.val = index := hnodup.getElem_inj_iff
  rw [← hinj, eq_of_beq hsource]
  rfl

def mappingsOn (map : SourceMap) (source : String) (line : UInt32) :
    List (Position × SourcePosition) :=
  map.mappings.filter fun mapping =>
    mapping.2.source = source ∧ mapping.2.position.line = line

theorem mappingsOn_eq (hnodup : map.sources.toList.Nodup) {index : Nat}
    (hindex : map.sources.toList.findIdx? (· == source) = some index) (line : UInt32) :
    map.mappingsOn source line =
      (map.origins.filter fun (_, origin) =>
        origin.source.val == index && origin.line == line).map fun (generated, origin) =>
          (generated, map.sourcePosition origin) := by
  rw [mappingsOn, mappings, List.filter_map]
  congr 1
  apply List.filter_congr
  rintro ⟨generated, origin⟩ _
  have hsource := source_eq_iff hnodup hindex origin
  rw [Function.comp_apply, Bool.eq_iff_iff, decide_eq_true_iff, hsource]
  simp [sourcePosition]

theorem mappingsOn_of_findIdx?_eq_none
    (hindex : map.sources.toList.findIdx? (· == source) = none) (line : UInt32) :
    map.mappingsOn source line = [] := by
  rw [List.findIdx?_eq_none_iff] at hindex
  rw [mappingsOn, mappings, List.filter_map, List.map_eq_nil_iff, List.filter_eq_nil_iff]
  rintro ⟨generated, origin⟩ _ hholds
  have hsource := (of_decide_eq_true hholds).1
  have hnot := hindex _ (Array.getElem_mem_toList origin.source.isLt)
  rw [beq_eq_false_iff_ne] at hnot
  exact hnot hsource

theorem generatedPosition?_of_findIdx? {index : Nat}
    (hindex : map.sources.toList.findIdx? (· == source) = some index) (position : Position) :
    let onLine := map.origins.filter fun (_, origin) =>
      origin.source.val == index && origin.line == position.line
    map.generatedPosition? source position =
      ((rightmost (·.2.column) (onLine.filter (·.2.column ≤ position.column))).head?.or
        (leftmost (·.2.column) onLine).head?).map (·.1) := by
  intro onLine
  rw [← best_eq_rightmost, ← best_eq_leftmost, generatedPosition?, hindex]
  change (best _ (onLine.filter (·.2.column ≤ position.column)) <|> best _ onLine).bind _ = _
  generalize best _ (onLine.filter (·.2.column ≤ position.column)) = before
  generalize best _ onLine = first
  cases before <;> cases first <;> rfl

/-- Where a position in a source is generated: at the first mapping of the greatest column
up to its own that the source has on that line, or else at the first of the least column.
There is none just when the source has no mapping on the line. -/
theorem generatedPosition?_eq_search (hnodup : map.sources.toList.Nodup) (source : String)
    (position : Position) :
    let onLine := map.mappingsOn source position.line
    let before := onLine.filter (·.2.position.column ≤ position.column)
    map.generatedPosition? source position =
        ((rightmost (·.2.position.column) before).head?.or
          (leftmost (·.2.position.column) onLine).head?).map (·.1) ∧
      (map.generatedPosition? source position = none ↔ onLine = []) := by
  dsimp only
  cases hindex : map.sources.toList.findIdx? (· == source) with
  | none =>
      have hnone : map.generatedPosition? source position = none := by
        rw [generatedPosition?, hindex]
        rfl
      rw [hnone, mappingsOn_of_findIdx?_eq_none hindex]
      exact ⟨rfl, iff_of_true rfl rfl⟩
  | some index =>
      rw [generatedPosition?_of_findIdx? hindex, mappingsOn_eq hnodup hindex, List.filter_map]
      generalize (map.origins.filter fun (_, origin) =>
        origin.source.val == index && origin.line == position.line) = found
      constructor
      · rw [rightmost, leftmost, rightmost, leftmost, unbeaten_map, unbeaten_map,
          List.head?_map, List.head?_map, ← Option.map_or, Option.map_map]
        rfl
      · rw [← best_eq_rightmost, ← best_eq_leftmost, Option.map_eq_none_iff,
          Option.or_eq_none_iff, best_eq_none_iff, best_eq_none_iff, List.map_eq_nil_iff]
        refine and_iff_right_of_imp ?_
        rintro rfl
        rfl

theorem generatedPosition?_eq_search_tied :
    let map : SourceMap :=
      { file := none, sources := #["a.scss", "b.scss"], contents := []
        lines := #[#[⟨0, some ⟨1, 1, 9⟩⟩, ⟨4, some ⟨0, 1, 7⟩⟩],
          #[⟨2, some ⟨0, 1, 7⟩⟩, ⟨5, none⟩, ⟨6, some ⟨0, 1, 3⟩⟩]] }
    map.sources.toList.Nodup ∧
      map.generatedPosition? "a.scss" ⟨1, 8⟩ = some ⟨1, 4⟩ ∧
      map.generatedPosition? "a.scss" ⟨1, 2⟩ = some ⟨2, 6⟩ ∧
      map.generatedPosition? "b.scss" ⟨2, 0⟩ = none := by
  intro map
  have hnodup : map.sources.toList.Nodup := by decide
  have hsearch := generatedPosition?_eq_search hnodup
  exact ⟨hnodup, (hsearch _ _).1.trans (by decide), (hsearch _ _).1.trans (by decide),
    (hsearch _ _).2.mpr (by decide)⟩

/-- The segment that is in force at a column: of those that start at or before it and are
the furthest to the right, the one that is written last. -/
def nearest? {count : Nat} (column : UInt32) (written : List (Segment count)) :
    Option (Segment count) :=
  (rightmost (·.column) (written.filter (·.column ≤ column))).getLast?

theorem rightmost_filter_sort {count : Nat} (p : Segment count → Bool)
    (written : List (Segment count)) :
    rightmost (·.column) ((Segment.sort written).filter p) =
      rightmost (·.column) (written.filter p) := by
  have hperm := (Segment.perm_sort written).filter p
  unfold rightmost unbeaten
  simp only [hperm.all_eq]
  rw [List.filter_filter, List.filter_filter]
  apply Segment.filter_sort_of_le
  intro first hfirst second _ hpasses hunbeaten
  rw [Bool.and_eq_true] at hpasses hunbeaten
  have hfound := List.all_eq_true.mp hunbeaten.1 first (List.mem_filter.mpr ⟨hfirst, hpasses.2⟩)
  simpa using hfound

theorem getLast?_filter_sort {count : Nat} (column : UInt32) (written : List (Segment count)) :
    ((Segment.sort written).filter (·.column ≤ column)).getLast? = nearest? column written := by
  rw [nearest?, ← rightmost_filter_sort]
  exact getLast?_of_pairwise ((Segment.pairwise_column_sort written).filter _)

/-- Where a generated position comes from: from where the segment points that going through
its line as it is written finds, in the source that is listed under its number. The binary
search never leaves the line, and no number of a source leaves the list. -/
theorem sourcePosition?_eq_search {wire : WireMap} (h : ofWire wire = .ok map) :
    map.sources.toList =
        wire.sources.map (fun source => joinRoot (wire.sourceRoot.getD "") (source.getD "")) ∧
      ∃ written : List (List (Segment map.sources.size)),
        Segment.ofLines map.sources.size {} (Text.splitOn ';' wire.mappings.toList) =
            .ok written ∧
          ∀ position : Position,
            map.sourcePosition? position =
                ((nearest? position.column (row written position.line)).bind (·.origin)).map
                  map.sourcePosition ∧
              ∀ count, partitionPoint (map.segmentsOf position.line)
                  (·.column ≤ position.column) = count + 1 →
                ∃ segment, (map.segmentsOf position.line)[count]? = some segment ∧
                  segment.column ≤ position.column ∧
                  ∀ origin, segment.origin = some origin →
                    ∃ source, map.sources[origin.source.val]? = some source := by
  obtain ⟨hsources, written, hwritten, hlines⟩ := exists_written h
  refine ⟨hsources, written, hwritten, fun position => ?_⟩
  have hsegments : (map.segmentsOf position.line).toList =
      Segment.sort (row written position.line) := by
    rw [toList_segmentsOf hlines, row_map Segment.sort List.mergeSort_nil]
  have hsorted := Segment.pairwise_column_sort (row written position.line)
  rw [← hsegments] at hsorted
  constructor
  · rw [sourcePosition?_eq_getLast? hsorted, hsegments, getLast?_filter_sort]
    cases nearest? position.column (row written position.line) <;> rfl
  · intro count hcount
    have hordered := pairwise_column_le hsorted position.column
    obtain ⟨segment, hsegment, hle⟩ := (partitionPoint_bounds hordered).1 count hcount
    refine ⟨segment, hsegment, of_decide_eq_true hle, fun origin _ => ?_⟩
    exact ⟨_, Array.getElem?_eq_getElem origin.source.isLt⟩

theorem sourcePosition?_eq_search_unsorted :
    let wire : WireMap :=
      { version := 3, sources := [some "a.scss"], mappings := "EAAA,DACA,AACA,E" }
    let map : SourceMap :=
      { file := none, sources := #["a.scss"], contents := []
        lines := #[#[⟨1, some ⟨0, 2, 0⟩⟩, ⟨1, some ⟨0, 3, 0⟩⟩, ⟨2, some ⟨0, 1, 0⟩⟩, ⟨3, none⟩]] }
    ofWire wire = .ok map ∧ map.sourcePosition? ⟨1, 1⟩ = some ⟨"a.scss", ⟨3, 0⟩⟩ ∧
      map.sourcePosition? ⟨1, 2⟩ = some ⟨"a.scss", ⟨1, 0⟩⟩ ∧
      map.sourcePosition? ⟨1, 5⟩ = none ∧ map.sourcePosition? ⟨1, 0⟩ = none ∧
      map.sourcePosition? ⟨2, 5⟩ = none := by
  intro wire map
  have hmap : ofWire wire = .ok map := by cbv
  obtain ⟨-, written, hwritten, hsearch⟩ := sourcePosition?_eq_search hmap
  have hread : Segment.ofLines 1 {} (Text.splitOn ';' wire.mappings.toList) =
      .ok [[⟨2, some ⟨0, 1, 0⟩⟩, ⟨1, some ⟨0, 2, 0⟩⟩, ⟨1, some ⟨0, 3, 0⟩⟩, ⟨3, none⟩]] := by cbv
  cases Except.ok.inj (hwritten.symm.trans hread)
  exact ⟨hmap, (hsearch _).1.trans (by decide), (hsearch _).1.trans (by decide),
    (hsearch _).1.trans (by decide), (hsearch _).1.trans (by decide),
    (hsearch _).1.trans (by decide)⟩

end SourceMap

end StyleSplit
