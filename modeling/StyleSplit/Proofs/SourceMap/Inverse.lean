import StyleSplit.Proofs.SourceMap.Decoded
import StyleSplit.Proofs.SourceMap.Queries

/-! From a listed original position back to where it is generated. A name is looked up as
the first source of that name, so what later sources of the same name list may be out of
reach. -/

namespace StyleSplit.SourceMap

variable {map : SourceMap} {generated : Position} {original : SourcePosition}

def IsFirst (map : SourceMap) (index : Fin map.sources.size) : Prop :=
  ∀ earlier : Fin map.sources.size, earlier < index → map.sources[earlier] ≠ map.sources[index]

instance (map : SourceMap) : DecidablePred map.IsFirst :=
  fun _ => inferInstanceAs (Decidable (∀ _, _))

/-- The mappings of those sources that are the first of their names. -/
def firstMappings (map : SourceMap) : List (Position × SourcePosition) :=
  (map.origins.filter fun (_, origin) => map.IsFirst origin.source).map fun (generated, origin) =>
    (generated, map.sourcePosition origin)

theorem mem_mappings_iff : (generated, original) ∈ map.mappings ↔
    ∃ origin, (generated, origin) ∈ map.origins ∧ map.sourcePosition origin = original := by
  simp [mappings]

theorem mem_firstMappings_iff : (generated, original) ∈ map.firstMappings ↔
    ∃ origin, (generated, origin) ∈ map.origins ∧ map.IsFirst origin.source ∧
      map.sourcePosition origin = original := by
  simp [firstMappings, and_assoc]

theorem firstMappings_subset : map.firstMappings ⊆ map.mappings := by
  rintro ⟨generated, original⟩ hmem
  obtain ⟨origin, horigin, -, hsame⟩ := mem_firstMappings_iff.mp hmem
  exact mem_mappings_iff.mpr ⟨origin, horigin, hsame⟩

theorem firstMappings_of_nodup (hnodup : map.sources.toList.Nodup) :
    map.firstMappings = map.mappings := by
  rw [firstMappings, List.filter_eq_self.mpr, mappings]
  rintro ⟨generated, origin⟩ -
  apply decide_eq_true
  intro earlier hlt hsame
  have hne := (List.pairwise_iff_getElem.mp hnodup) earlier.val origin.source.val
    earlier.isLt origin.source.isLt hlt
  exact hne hsame

theorem exists_findIdx? (origin : Origin map.sources.size) :
    ∃ index, map.sources.toList.findIdx? (· == (map.sourcePosition origin).source) =
      some index := by
  rw [← Option.isSome_iff_exists, List.findIdx?_isSome, List.any_eq_true]
  exact ⟨_, Array.getElem_mem_toList origin.source.isLt, beq_self_eq_true _⟩

theorem isFirst_and_source_eq_iff {source : String} {index : Nat}
    (hindex : map.sources.toList.findIdx? (· == source) = some index)
    (origin : Origin map.sources.size) :
    map.IsFirst origin.source ∧ (map.sourcePosition origin).source = source ↔
      origin.source.val = index := by
  obtain ⟨hlt, hsource, hbefore⟩ := List.findIdx?_eq_some_iff_getElem.mp hindex
  rw [Array.length_toList] at hlt
  have hnamed : map.sources[index] = source := eq_of_beq hsource
  constructor
  · rintro ⟨hfirst, hsame⟩
    rcases Nat.lt_trichotomy origin.source.val index with hbelow | heq | habove
    · exact absurd (beq_iff_eq.mpr hsame) (hbefore _ hbelow)
    · exact heq
    · exact absurd (hnamed.trans hsame.symm) (hfirst ⟨index, hlt⟩ habove)
  · rintro rfl
    refine ⟨fun earlier hbelow hsame => ?_, hnamed⟩
    exact hbefore _ hbelow (beq_iff_eq.mpr (hsame.trans hnamed))

theorem of_head?_unbeaten {α : Type} {beats : α → α → Bool} {candidates : List α} {x : α}
    (h : (unbeaten beats candidates).head? = some x) :
    x ∈ candidates ∧ ∀ other ∈ candidates, beats other x = false := by
  have hmem := List.mem_filter.mp (List.mem_of_head? h)
  simpa using hmem

/-- The first source of a name answers with one of its mappings on the line, and with one in
the column that is asked for if it has any there. -/
theorem generatedPosition?_of_first {source : String} {index : Nat}
    (hindex : map.sources.toList.findIdx? (· == source) = some index) (position : Position) :
    (map.generatedPosition? source position = none ↔
      ∀ mapping ∈ map.origins, ¬ (mapping.2.source.val = index ∧
        mapping.2.line = position.line)) ∧
    ∀ found, map.generatedPosition? source position = some found →
      ∃ origin, (found, origin) ∈ map.origins ∧ origin.source.val = index ∧
        origin.line = position.line ∧
        ∀ mapping ∈ map.origins, mapping.2.source.val = index →
          mapping.2.line = position.line → mapping.2.column = position.column →
            origin.column = position.column := by
  have hanswer := generatedPosition?_of_findIdx? hindex position
  dsimp only at hanswer
  generalize honLine : (map.origins.filter fun (_, origin) =>
    origin.source.val == index && origin.line == position.line) = onLine at hanswer
  have hmem (mapping : Position × Origin map.sources.size) : mapping ∈ onLine ↔
      mapping ∈ map.origins ∧ mapping.2.source.val = index ∧ mapping.2.line = position.line := by
    simp [← honLine]
  rw [hanswer]
  constructor
  · rw [Option.map_eq_none_iff, Option.or_eq_none_iff, ← best_eq_rightmost, ← best_eq_leftmost,
      best_eq_none_iff, best_eq_none_iff]
    constructor
    · rintro ⟨-, hnil⟩ mapping hmapping hholds
      have hin := (hmem mapping).mpr ⟨hmapping, hholds⟩
      rw [hnil] at hin
      cases hin
    · intro hall
      have hnil : onLine = [] := by
        rw [List.eq_nil_iff_forall_not_mem]
        intro mapping hin
        obtain ⟨hmapping, hholds⟩ := (hmem mapping).mp hin
        exact hall mapping hmapping hholds
      rw [hnil]
      exact ⟨rfl, rfl⟩
  · intro found hfound
    obtain ⟨⟨_, origin⟩, hbest, rfl⟩ := Option.map_eq_some_iff.mp hfound
    rw [Option.or_eq_some_iff] at hbest
    rcases hbest with hbefore | ⟨hnone, hfirst⟩
    · obtain ⟨hin, hunbeaten⟩ := of_head?_unbeaten hbefore
      obtain ⟨hline, hle⟩ := List.mem_filter.mp hin
      obtain ⟨hmapping, hsource, hline⟩ := (hmem _).mp hline
      refine ⟨origin, hmapping, hsource, hline, fun mapping hother hsame hsameLine hcolumn => ?_⟩
      have hcandidate := hunbeaten mapping (List.mem_filter.mpr
        ⟨(hmem _).mpr ⟨hother, hsame, hsameLine⟩, by simp [hcolumn]⟩)
      apply UInt32.le_antisymm (of_decide_eq_true hle)
      simpa [hcolumn] using hcandidate
    · obtain ⟨hin, -⟩ := of_head?_unbeaten hfirst
      obtain ⟨hmapping, hsource, hline⟩ := (hmem _).mp hin
      refine ⟨origin, hmapping, hsource, hline, fun mapping hother hsame hsameLine hcolumn => ?_⟩
      rw [← best_eq_rightmost, best_eq_none_iff, List.filter_eq_nil_iff] at hnone
      exact absurd (by simp [hcolumn]) (hnone mapping ((hmem _).mpr ⟨hother, hsame, hsameLine⟩))

theorem generatedPosition?_firstMappings (map : SourceMap) (source : String)
    (position : Position) :
    (map.generatedPosition? source position = none ↔
      ∀ mapping ∈ map.firstMappings, ¬ (mapping.2.source = source ∧
        mapping.2.position.line = position.line)) ∧
    ∀ found, map.generatedPosition? source position = some found →
      ∃ nearest, (found, nearest) ∈ map.firstMappings ∧ nearest.source = source ∧
        nearest.position.line = position.line ∧
        ((∃ other, (other, ⟨source, position⟩) ∈ map.firstMappings) →
          nearest = ⟨source, position⟩) := by
  cases hindex : map.sources.toList.findIdx? (· == source) with
  | none =>
      have hnone : map.generatedPosition? source position = none := by
        rw [generatedPosition?, hindex]
        rfl
      rw [hnone]
      refine ⟨iff_of_true rfl ?_, fun found hfound => by cases hfound⟩
      rintro ⟨generated, original⟩ hmem ⟨rfl, -⟩
      obtain ⟨origin, -, -, rfl⟩ := mem_firstMappings_iff.mp hmem
      obtain ⟨index, hlisted⟩ := exists_findIdx? origin
      rw [hindex] at hlisted
      cases hlisted
  | some index =>
      obtain ⟨hnone, hsome⟩ := generatedPosition?_of_first hindex position
      constructor
      · rw [hnone]
        constructor
        · rintro hall ⟨generated, original⟩ hmem ⟨hsource, hline⟩
          obtain ⟨origin, horigin, hfirst, rfl⟩ := mem_firstMappings_iff.mp hmem
          have hnumber := (isFirst_and_source_eq_iff hindex origin).mp ⟨hfirst, hsource⟩
          exact hall _ horigin ⟨hnumber, hline⟩
        · rintro hall ⟨generated, origin⟩ horigin ⟨hnumber, hline⟩
          obtain ⟨hfirst, hsource⟩ := (isFirst_and_source_eq_iff hindex origin).mpr hnumber
          exact hall _ (mem_firstMappings_iff.mpr ⟨origin, horigin, hfirst, rfl⟩) ⟨hsource, hline⟩
      · intro found hfound
        obtain ⟨origin, horigin, hnumber, hline, hcolumn⟩ := hsome found hfound
        obtain ⟨hfirst, hsource⟩ := (isFirst_and_source_eq_iff hindex origin).mpr hnumber
        refine ⟨map.sourcePosition origin,
          mem_firstMappings_iff.mpr ⟨origin, horigin, hfirst, rfl⟩, hsource, hline, ?_⟩
        rintro ⟨other, hother⟩
        obtain ⟨listed, hlisted, hlistedFirst, hsame⟩ := mem_firstMappings_iff.mp hother
        have hposition : (⟨listed.line, listed.column⟩ : Position) = position :=
          congrArg SourcePosition.position hsame
        have hlistedNumber := (isFirst_and_source_eq_iff hindex listed).mp
          ⟨hlistedFirst, congrArg SourcePosition.source hsame⟩
        have hsameColumn := hcolumn _ hlisted hlistedNumber (congrArg Position.line hposition)
          (congrArg Position.column hposition)
        rw [← hsource]
        exact congrArg (SourcePosition.mk _) (congr (congrArg Position.mk hline) hsameColumn)

/-- A listed original position is found again when the first source of its name lists it, as
it does when no two sources share a name. When only a later source of the name lists it, the
answer is none, or where another position of the first source is generated. -/
theorem generatedPosition?_of_mem_mappings (hmem : (generated, original) ∈ map.mappings) :
    let answer := map.generatedPosition? original.source original.position
    (map.sources.toList.Nodup ∨ (∃ other, (other, original) ∈ map.firstMappings) →
      ∃ found, answer = some found ∧ (found, original) ∈ map.mappings) ∧
    ((∀ other, (other, original) ∉ map.firstMappings) →
      (answer = none ∧ ∀ mapping ∈ map.firstMappings, ¬ (mapping.2.source = original.source ∧
        mapping.2.position.line = original.position.line)) ∨
      ∃ found nearest, answer = some found ∧ nearest ≠ original ∧
        (found, nearest) ∈ map.firstMappings ∧ nearest.source = original.source ∧
        nearest.position.line = original.position.line) := by
  dsimp only
  obtain ⟨hnone, hsome⟩ :=
    generatedPosition?_firstMappings map original.source original.position
  constructor
  · intro hlisted
    obtain ⟨other, hother⟩ : ∃ other, (other, original) ∈ map.firstMappings := by
      rcases hlisted with hnodup | hfirst
      · exact ⟨generated, firstMappings_of_nodup hnodup ▸ hmem⟩
      · exact hfirst
    cases hanswer : map.generatedPosition? original.source original.position with
    | none => exact absurd ⟨rfl, rfl⟩ (hnone.mp hanswer _ hother)
    | some found =>
        obtain ⟨nearest, hnearest, -, -, hexact⟩ := hsome found hanswer
        rw [hexact ⟨other, hother⟩] at hnearest
        exact ⟨found, rfl, firstMappings_subset hnearest⟩
  · intro hunlisted
    cases hanswer : map.generatedPosition? original.source original.position with
    | none => exact .inl ⟨rfl, hnone.mp hanswer⟩
    | some found =>
        obtain ⟨nearest, hnearest, hsource, hline, -⟩ := hsome found hanswer
        refine .inr ⟨found, nearest, rfl, ?_, hnearest, hsource, hline⟩
        rintro rfl
        exact hunlisted found hnearest

theorem generatedPosition?_of_mem_mappings_rooted :
    let wire : WireMap :=
      { version := 3, sourceRoot := some "src", sources := [none, some "", some "b.scss"]
        mappings := "AAAA,ICAE" }
    let map : SourceMap :=
      { file := none, sources := #["src/", "src/", "src/b.scss"], contents := []
        lines := #[#[⟨0, some ⟨0, 1, 0⟩⟩, ⟨4, some ⟨1, 1, 2⟩⟩]] }
    ofWire wire = .ok map ∧
      (⟨1, 0⟩, ⟨"src/", ⟨1, 0⟩⟩) ∈ map.mappings ∧ (⟨1, 4⟩, ⟨"src/", ⟨1, 2⟩⟩) ∈ map.mappings ∧
      (∃ found, map.generatedPosition? "src/" ⟨1, 0⟩ = some found ∧
        (found, ⟨"src/", ⟨1, 0⟩⟩) ∈ map.mappings) ∧
      ∃ found nearest, map.generatedPosition? "src/" ⟨1, 2⟩ = some found ∧
        nearest ≠ ⟨"src/", ⟨1, 2⟩⟩ ∧ (found, nearest) ∈ map.firstMappings ∧
        nearest.source = "src/" ∧ nearest.position.line = 1 := by
  intro wire map
  have hsources : wire.sources.map (fun source =>
      joinRoot (wire.sourceRoot.getD "") (source.getD "")) = ["src/", "src/", "src/b.scss"] := by
    cbv
  have hlines : Segment.decode 3 wire.mappings =
      .ok [[⟨0, some ⟨0, 1, 0⟩⟩, ⟨4, some ⟨1, 1, 2⟩⟩]] := by cbv
  have hmap : ofWire wire = .ok map := @ofWire_eq_ok wire _ _ rfl hsources hlines
  have hfirst : (⟨1, 0⟩, ⟨"src/", ⟨1, 0⟩⟩) ∈ map.mappings := by decide
  have hlater : (⟨1, 4⟩, ⟨"src/", ⟨1, 2⟩⟩) ∈ map.mappings := by decide
  have hunlisted : ∀ other, (other, ⟨"src/", ⟨1, 2⟩⟩) ∉ map.firstMappings := by
    have hall : ∀ mapping ∈ map.firstMappings, mapping.2 ≠ ⟨"src/", ⟨1, 2⟩⟩ := by decide
    exact fun other hother => hall _ hother rfl
  refine ⟨hmap, hfirst, hlater, ?_, ?_⟩
  · exact (generatedPosition?_of_mem_mappings hfirst).1 (.inr ⟨⟨1, 0⟩, by decide⟩)
  · refine ((generatedPosition?_of_mem_mappings hlater).2 hunlisted).resolve_left ?_
    rintro ⟨hnone, -⟩
    exact absurd hnone (by decide)

/-- A position that only the second of two sources of one name lists is not found. -/
theorem not_found_of_repeated_source :
    let wire : WireMap :=
      { version := 3, sources := [some "a.scss", some "a.scss"], mappings := "ACAA" }
    ∃ map, ofWire wire = .ok map ∧ (⟨1, 0⟩, ⟨"a.scss", ⟨1, 0⟩⟩) ∈ map.mappings ∧
      ¬ ∃ found, map.generatedPosition? "a.scss" ⟨1, 0⟩ = some found ∧
        (found, ⟨"a.scss", ⟨1, 0⟩⟩) ∈ map.mappings := by
  intro wire
  let map : SourceMap :=
    { file := none, sources := #["a.scss", "a.scss"], contents := []
      lines := #[#[⟨0, some ⟨1, 1, 0⟩⟩]] }
  have hmap : ofWire wire = .ok map := by cbv
  have hnone : map.generatedPosition? "a.scss" ⟨1, 0⟩ = none := by decide
  refine ⟨map, hmap, by decide, ?_⟩
  rintro ⟨found, hfound, -⟩
  rw [hnone] at hfound
  cases hfound

end StyleSplit.SourceMap
