import StyleSplit.Proofs.Routing.Lookups

/-! What happens to the origins of parts on the way through a split: those that the
map of the document knows come out again, and a part that it does not know can take
the origin of another. -/

namespace StyleSplit.Routing

/-- A part that has an origin is found again: the map that is written with its block
gives the same origin where the part was copied to. -/
theorem lookup_at_mapped_copy (document : Document) (options : Options) (wire : WireMap)
    (map : SourceMap) (hclean : (Stylesheet.ofText document.text).isClean = true)
    (hsize : document.text.utf8ByteSize < 2 ^ 32)
    (hwire : document.map = some (SourceMap.ofWire wire))
    (hmap : (usableMap document options).1 = some map) (id : Nat) (block : Block)
    (hblock : (ofDocument document options).blocks[id]? = some block) :
    (block.render document.path options (ofDocument document options).map).map =
        some (block.wireMap document.path options map).toText ∧
      ∃ output, SourceMap.ofWire (block.wireMap document.path options map) = .ok output ∧
        ∀ copy ∈ copies document options id, ∀ origin,
          map.origin? document.text copy.part = some origin →
            ∃ generated, Position.ofOffset? block.text copy.offset = some generated ∧
              output.sourcePosition? generated = some origin := by
  have hdecoded := ofWire_eq_of_usableMap hwire hmap
  have hreadable := readable_mapBuilder (block.path document.path options) hclean hsize
    hdecoded hmap hblock
  refine ⟨?_, _, hreadable.ofWire_toWire, ?_⟩
  · rw [map_ofDocument hclean, hmap]
    exact block.map_render document.path options map
  · intro copy hcopy origin horigin
    obtain ⟨generated, hgenerated⟩ :=
      (stands_of_mem_copies hclean hblock hcopy).exists_ofOffset?
    obtain ⟨earlier, later, hcopies⟩ := List.append_of_mem hcopy
    have hown : copy.mapping? map document.text block.text = some ⟨generated, origin⟩ := by
      simp [Copy.mapping?, horigin, hgenerated]
    refine ⟨generated, hgenerated, ?_⟩
    rw [sourcePosition?_at_copy _ hclean hsize hdecoded hmap hblock hcopies hgenerated, hown]
    simp

theorem lookup_at_mapped_copy_joined :
    let wire : WireMap := { version := 3, sources := [some "a.scss"], mappings := "AAAA;AACA" }
    let document : Document := {
      path := "main.css"
      text := ".a\x7b\x7d\n.b\x7b\x7d"
      map := some (SourceMap.ofWire wire) }
    ∃ map block output, (Stylesheet.ofText document.text).isClean = true ∧
      document.text.utf8ByteSize < 2 ^ 32 ∧
      (usableMap document {}).1 = some map ∧
      (ofDocument document {}).blocks[0]? = some block ∧
      SourceMap.ofWire (block.wireMap document.path {} map) = .ok output ∧
      output.sourcePosition? ⟨1, 4⟩ = some ⟨"a.scss", ⟨2, 0⟩⟩ := by
  intro wire document
  have hclean : (Stylesheet.ofText document.text).isClean = true := by decide +kernel
  have hsize : document.text.utf8ByteSize < 2 ^ 32 := by decide
  have hcopied : ((usableMap document {}).1.bind fun map =>
      (ofDocument document {}).blocks[0]?.bind fun block =>
        (copies document {} 0)[1]?.bind fun copy =>
          copy.mapping? map document.text block.text) =
      some ⟨⟨1, 4⟩, ⟨"a.scss", ⟨2, 0⟩⟩⟩ := by decide +kernel
  obtain ⟨map, hmap, hcopied⟩ := Option.bind_eq_some_iff.mp hcopied
  obtain ⟨block, hblock, hcopied⟩ := Option.bind_eq_some_iff.mp hcopied
  obtain ⟨copy, hcopy, hmapping⟩ := Option.bind_eq_some_iff.mp hcopied
  obtain ⟨horigin, hposition⟩ := Copy.generated_of_mapping? hmapping
  obtain ⟨-, output, houtput, hlookup⟩ :=
    lookup_at_mapped_copy document {} wire map hclean hsize rfl hmap 0 block hblock
  obtain ⟨generated, hgenerated, hanswer⟩ :=
    hlookup copy (List.mem_of_getElem? hcopy) _ horigin
  rw [hposition] at hgenerated
  cases hgenerated
  exact ⟨map, block, output, hclean, hsize, hmap, hblock, houtput, hanswer⟩

/-- A part that has no origin takes that of the nearest part before it on its line of
the block that has one, and has none exactly when there is no such part. -/
theorem lookup_at_unmapped_copy (document : Document) (options : Options) (wire : WireMap)
    (map : SourceMap) (hclean : (Stylesheet.ofText document.text).isClean = true)
    (hsize : document.text.utf8ByteSize < 2 ^ 32)
    (hwire : document.map = some (SourceMap.ofWire wire))
    (hmap : (usableMap document options).1 = some map) (id : Nat) (block : Block)
    (hblock : (ofDocument document options).blocks[id]? = some block) :
    ∃ output, SourceMap.ofWire (block.wireMap document.path options map) = .ok output ∧
      ∀ earlier copy later, copies document options id = earlier ++ copy :: later →
        map.origin? document.text copy.part = none →
          ∃ generated, Position.ofOffset? block.text copy.offset = some generated ∧
            output.sourcePosition? generated =
              (((earlier.filterMap (Copy.mapping? map document.text block.text)).filter
                (·.generated.line = generated.line)).getLast?).map (·.origin) ∧
            (output.sourcePosition? generated = none ↔
              ∀ other ∈ earlier, ∀ mapping,
                other.mapping? map document.text block.text = some mapping →
                  mapping.generated.line ≠ generated.line) := by
  have hdecoded := ofWire_eq_of_usableMap hwire hmap
  have hreadable := readable_mapBuilder (block.path document.path options) hclean hsize
    hdecoded hmap hblock
  refine ⟨_, hreadable.ofWire_toWire, ?_⟩
  intro earlier copy later hcopies horigin
  have hcopy : copy ∈ copies document options id := by
    rw [hcopies]
    exact List.mem_append_right _ (List.mem_cons_self ..)
  obtain ⟨generated, hgenerated⟩ :=
    (stands_of_mem_copies hclean hblock hcopy).exists_ofOffset?
  have hnone : copy.mapping? map document.text block.text = none := by
    simp [Copy.mapping?, horigin]
  have hanswer := sourcePosition?_at_copy (block.path document.path options) hclean hsize
    hdecoded hmap hblock hcopies hgenerated
  rw [hnone, Option.toList_none, List.append_nil] at hanswer
  refine ⟨generated, hgenerated, hanswer, ?_⟩
  rw [hanswer, Option.map_eq_none_iff, List.getLast?_eq_none_iff, List.filter_eq_nil_iff]
  constructor
  · intro hall other hother mapping hmapping hline
    exact hall mapping (List.mem_filterMap.mpr ⟨other, hother, hmapping⟩) (by simpa using hline)
  · intro hall mapping hmapping hline
    obtain ⟨other, hother, hmapped⟩ := List.mem_filterMap.mp hmapping
    exact hall other hother mapping hmapped (of_decide_eq_true hline)

theorem lookup_at_unmapped_copy_joined :
    let wire : WireMap := { version := 3, sources := [some "a.scss"], mappings := ";AAAA" }
    let document : Document := {
      path := "main.css"
      text := ".a\x7b\x7d\n.b\x7b\x7d\n.c\x7b\x7d"
      map := some (SourceMap.ofWire wire) }
    ∃ map block output, (Stylesheet.ofText document.text).isClean = true ∧
      document.text.utf8ByteSize < 2 ^ 32 ∧
      (usableMap document {}).1 = some map ∧
      (ofDocument document {}).blocks[0]? = some block ∧
      SourceMap.ofWire (block.wireMap document.path {} map) = .ok output ∧
      output.sourcePosition? ⟨1, 0⟩ = none ∧
      output.sourcePosition? ⟨1, 8⟩ = some ⟨"a.scss", ⟨1, 0⟩⟩ := by
  intro wire document
  have hclean : (Stylesheet.ofText document.text).isClean = true := by decide +kernel
  have hsize : document.text.utf8ByteSize < 2 ^ 32 := by decide
  have hcopied : ((usableMap document {}).1.bind fun map =>
      (ofDocument document {}).blocks[0]?.map fun block =>
        (copies document {} 0).map fun copy =>
          (Position.ofOffset? block.text copy.offset, map.origin? document.text copy.part)) =
      some [(some ⟨1, 0⟩, none), (some ⟨1, 4⟩, some ⟨"a.scss", ⟨1, 0⟩⟩), (some ⟨1, 8⟩, none)] := by
    decide +kernel
  obtain ⟨map, hmap, hcopied⟩ := Option.bind_eq_some_iff.mp hcopied
  obtain ⟨block, hblock, hcopied⟩ := Option.map_eq_some_iff.mp hcopied
  obtain ⟨first, rest, hcopies, hfirst, hrest⟩ := List.map_eq_cons_iff.mp hcopied
  obtain ⟨second, rest, rfl, hsecond, hrest⟩ := List.map_eq_cons_iff.mp hrest
  obtain ⟨third, rest, rfl, hthird, -⟩ := List.map_eq_cons_iff.mp hrest
  rw [Prod.mk.injEq] at hfirst hsecond hthird
  obtain ⟨output, houtput, hlookup⟩ :=
    lookup_at_unmapped_copy document {} wire map hclean hsize rfl hmap 0 block hblock
  obtain ⟨start, hstart, -, hnone⟩ := hlookup [] first _ hcopies hfirst.2
  obtain ⟨generated, hgenerated, hanswer, -⟩ :=
    hlookup [first, second] third rest hcopies hthird.2
  rw [hfirst.1] at hstart
  rw [hthird.1] at hgenerated
  cases hstart
  cases hgenerated
  refine ⟨map, block, output, hclean, hsize, hmap, hblock, houtput, hnone.mpr (by simp), ?_⟩
  rw [hanswer]
  simp [Copy.mapping?, hfirst, hsecond]

theorem not_none_at_unmapped_copy :
    ¬ ∀ (document : Document) (options : Options) (wire : WireMap) (map : SourceMap),
      (Stylesheet.ofText document.text).isClean = true →
      document.map = some (SourceMap.ofWire wire) →
      (usableMap document options).1 = some map →
      ∀ (id : Nat) (block : Block), (ofDocument document options).blocks[id]? = some block →
        ∀ output, SourceMap.ofWire (block.wireMap document.path options map) = .ok output →
          ∀ copy ∈ copies document options id, map.origin? document.text copy.part = none →
            ∀ generated, Position.ofOffset? block.text copy.offset = some generated →
              output.sourcePosition? generated = none := by
  intro hclaim
  let wire : WireMap := { version := 3, sources := [some "a.scss"], mappings := "AAAA" }
  let document : Document := {
    path := "main.css"
    text := ".a\x7b\x7d\n.b\x7b\x7d"
    map := some (SourceMap.ofWire wire) }
  have hclean : (Stylesheet.ofText document.text).isClean = true := by decide +kernel
  have hcopied : ((usableMap document {}).1.bind fun map =>
      (ofDocument document {}).blocks[0]?.bind fun block =>
        (copies document {} 0)[1]?.bind fun copy =>
          (SourceMap.ofWire (block.wireMap document.path {} map)).toOption.bind fun output =>
            (Position.ofOffset? block.text copy.offset).bind fun generated =>
              if map.origin? document.text copy.part = none then
                output.sourcePosition? generated
              else none) = some ⟨"a.scss", ⟨1, 0⟩⟩ := by decide +kernel
  obtain ⟨map, hmap, hcopied⟩ := Option.bind_eq_some_iff.mp hcopied
  obtain ⟨block, hblock, hcopied⟩ := Option.bind_eq_some_iff.mp hcopied
  obtain ⟨copy, hcopy, hcopied⟩ := Option.bind_eq_some_iff.mp hcopied
  obtain ⟨output, houtput, hcopied⟩ := Option.bind_eq_some_iff.mp hcopied
  obtain ⟨generated, hgenerated, hanswer⟩ := Option.bind_eq_some_iff.mp hcopied
  have hok : SourceMap.ofWire (block.wireMap document.path {} map) = .ok output := by
    cases hdecoded : SourceMap.ofWire (block.wireMap document.path {} map) with
    | error => simp [hdecoded, Except.toOption] at houtput
    | ok => simpa [hdecoded, Except.toOption] using houtput
  split at hanswer
  · rename_i hnone
    have hclaimed := hclaim document {} wire map hclean rfl hmap 0 block hblock output hok copy
      (List.mem_of_getElem? hcopy) hnone generated hgenerated
    rw [hclaimed] at hanswer
    cases hanswer
  · cases hanswer

end StyleSplit.Routing
