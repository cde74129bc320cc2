import StyleSplit.Proofs.Block.Map
import StyleSplit.Proofs.Routing.Origins
import StyleSplit.Proofs.SourceMap.Lines

/-! What the map of a block answers for the copies in the block. -/

namespace StyleSplit.Routing

variable {document : Document} {options : Options} {id : Nat} {block : Block}
  {map : SourceMap} {wire : WireMap} {copy : Copy}

theorem map_eq_of_usableMap (hmap : (usableMap document options).1 = some map) :
    document.map = some (.ok map) := by
  unfold usableMap at hmap
  split at hmap
  · split at hmap
    · cases hmap
    · cases hmap
    · rename_i found hfound
      split at hmap
      · cases hmap
      · cases hmap
        exact hfound
  · cases hmap

theorem ofWire_eq_of_usableMap (hwire : document.map = some (SourceMap.ofWire wire))
    (hmap : (usableMap document options).1 = some map) : SourceMap.ofWire wire = .ok map :=
  Option.some.inj (hwire.symm.trans (map_eq_of_usableMap hmap))

theorem utf8ByteSize_block_le (hclean : (Stylesheet.ofText document.text).isClean = true)
    (hblock : (ofDocument document options).blocks[id]? = some block) :
    block.text.utf8ByteSize ≤ document.text.utf8ByteSize := by
  rw [text_of_block hclean hblock, Text.utf8ByteSize_join, List.map_map]
  refine Nat.le_trans ?_ (Stylesheet.sum_utf8ByteSize_le document.text)
  apply List.Sublist.sum_le_sum
  · exact (Nesting.routedTo_sublist ..).map _
  · intro size _
    exact Nat.zero_le size

theorem pairwise_before (hclean : (Stylesheet.ofText document.text).isClean = true)
    (hsize : document.text.utf8ByteSize < 2 ^ 32)
    (hblock : (ofDocument document options).blocks[id]? = some block) :
    (copies document options id).Pairwise (Copy.Before block.text) := by
  have hle := utf8ByteSize_block_le hclean hblock
  apply (pairwise_offset_copies document options id).imp_of_mem
  intro first second _ hsecond hlt start hstart stop hstop
  have hinside := (stands_of_mem_copies hclean hblock hsecond).offset_lt
  exact Position.before_of_ofOffset? hstart hstop hlt (by omega)

theorem pairwise_before_mappings (map : SourceMap)
    (hclean : (Stylesheet.ofText document.text).isClean = true)
    (hsize : document.text.utf8ByteSize < 2 ^ 32)
    (hblock : (ofDocument document options).blocks[id]? = some block) :
    ((copies document options id).filterMap
      (Copy.mapping? map document.text block.text)).Pairwise fun first second =>
        first.generated.Before second.generated := by
  rw [List.pairwise_filterMap]
  apply (pairwise_before hclean hsize hblock).imp
  intro first second hbefore start hstart stop hstop
  exact hbefore _ (Copy.generated_of_mapping? hstart).2 _ (Copy.generated_of_mapping? hstop).2

theorem length_copies_le (hclean : (Stylesheet.ofText document.text).isClean = true)
    (hblock : (ofDocument document options).blocks[id]? = some block) :
    (copies document options id).length ≤ block.text.utf8ByteSize := by
  have hnodup : ((copies document options id).map (·.offset)).Nodup := by
    rw [List.Nodup, List.pairwise_map]
    exact (pairwise_offset_copies document options id).imp Nat.ne_of_lt
  have hrange : (copies document options id).map (·.offset) ⊆
      List.range block.text.utf8ByteSize := by
    intro offset hoffset
    obtain ⟨copy, hcopy, rfl⟩ := List.mem_map.mp hoffset
    exact List.mem_range.mpr (stands_of_mem_copies hclean hblock hcopy).offset_lt
  have hlength := (List.subperm_of_subset hnodup hrange).length_le
  rwa [List.length_map, List.length_range] at hlength

theorem readable_mapBuilder (path : String)
    (hclean : (Stylesheet.ofText document.text).isClean = true)
    (hsize : document.text.utf8ByteSize < 2 ^ 32) (hwire : SourceMap.ofWire wire = .ok map)
    (hmap : (usableMap document options).1 = some map)
    (hblock : (ofDocument document options).blocks[id]? = some block) :
    (block.mapBuilder path map).Readable := by
  have hle := utf8ByteSize_block_le hclean hblock
  have hmappings := mappings_of_block hclean hmap hblock
  obtain ⟨hindexed, hwritten, hsources⟩ := block.written_mapBuilder path map
  apply hindexed.readable
  · have hcopies := length_copies_le hclean hblock
    have hcount := List.length_filterMap_le (Copy.mapping? map document.text block.text)
      (copies document options id)
    rw [← hmappings, Array.length_toList] at hcount
    omega
  · rw [hwritten, hmappings]
    intro mapping hmapping
    obtain ⟨copy, hcopy, horigin, hgenerated⟩ := Copy.exists_of_mem_mappings hmapping
    have hinside := (stands_of_mem_copies hclean hblock hcopy).offset_lt
    obtain ⟨position, -, hposition⟩ := Option.bind_eq_some_iff.mp horigin
    obtain ⟨before, later, -, hoffset, heq⟩ := Position.ofOffset?_eq_some_iff.mp hgenerated
    refine ⟨?_, SourceMap.line_ne_zero_of_sourcePosition? hwire hposition⟩
    rw [heq]
    exact Position.line_after_ne_zero (by omega)

/-- The answer at a copy is the last of the mappings before it on its line, or its
own if it has one. -/
theorem sourcePosition?_at_copy (path : String) {earlier later : List Copy}
    {generated : Position} (hclean : (Stylesheet.ofText document.text).isClean = true)
    (hsize : document.text.utf8ByteSize < 2 ^ 32) (hwire : SourceMap.ofWire wire = .ok map)
    (hmap : (usableMap document options).1 = some map)
    (hblock : (ofDocument document options).blocks[id]? = some block)
    (hcopies : copies document options id = earlier ++ copy :: later)
    (hgenerated : Position.ofOffset? block.text copy.offset = some generated) :
    (block.mapBuilder path map).decoded.sourcePosition? generated =
      (((earlier.filterMap (Copy.mapping? map document.text block.text)).filter
          (·.generated.line = generated.line) ++
        (copy.mapping? map document.text block.text).toList).getLast?).map (·.origin) := by
  have hmappings := mappings_of_block hclean hmap hblock
  have hwritten := (block.written_mapBuilder path map).2.1
  have hordered := pairwise_before_mappings map hclean hsize hblock
  have hbefore := pairwise_before hclean hsize hblock
  rw [hcopies] at hbefore
  rw [← hmappings, ← hwritten] at hordered
  rw [(readable_mapBuilder path hclean hsize hwire hmap hblock).sourcePosition?_of_before
    hordered, hwritten, hmappings, hcopies, Copy.filter_mappings_of_before hbefore hgenerated]

end StyleSplit.Routing
