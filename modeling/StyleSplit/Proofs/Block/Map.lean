import StyleSplit.Proofs.Block.Append
import StyleSplit.Proofs.SourceMap.Builder

/-! The map that a block is written with, and what it answers when it is read back. -/

namespace StyleSplit.Block

variable {block : Block}

theorem mapBuilder_eq (block : Block) (path : String) (map : SourceMap) :
    (block.mapBuilder path map).sourceNames =
        (MapBuilder.addAll { file := some path } block.mappings.toList).sourceNames ∧
      (block.mapBuilder path map).entries =
        (MapBuilder.addAll { file := some path } block.mappings.toList).entries := by
  rw [mapBuilder, ← Array.foldl_toList, ← Array.foldl_toList]
  exact MapBuilder.foldl_setContent _ block.sources.toList map.contentFor?

theorem written_mapBuilder (block : Block) (path : String) (map : SourceMap) :
    (block.mapBuilder path map).Indexed ∧
      (block.mapBuilder path map).written = block.mappings.toList ∧
      (block.mapBuilder path map).sources.size ≤ block.mappings.size := by
  obtain ⟨hnames, hentries⟩ := mapBuilder_eq block path map
  obtain ⟨hindexed, hwritten, hsources⟩ :=
    (@MapBuilder.indexed_of_isEmpty { file := some path } rfl).addAll block.mappings.toList
  have hsize : (block.mapBuilder path map).sources.size =
      (MapBuilder.addAll { file := some path } block.mappings.toList).sources.size := by
    rw [← MapBuilder.length_sourceNames, hnames, MapBuilder.length_sourceNames]
  refine ⟨?_, ?_, ?_⟩
  · intro entry hentry
    rw [hentries] at hentry
    rw [hsize]
    exact hindexed entry hentry
  · refine Eq.trans ?_ hwritten
    rw [MapBuilder.written, MapBuilder.written, hentries]
    apply List.map_congr_left
    intro entry _
    rw [MapBuilder.origin, MapBuilder.origin, hnames]
  · rw [hsize]
    simpa using hsources

def wireMap (block : Block) (documentPath : String) (options : Options) (map : SourceMap) :
    WireMap :=
  (block.mapBuilder (block.path documentPath options) map).toWire

theorem map_render (block : Block) (documentPath : String) (options : Options)
    (map : SourceMap) :
    (block.render documentPath options (some map)).map =
      some (block.wireMap documentPath options map).toText := rfl

end StyleSplit.Block
