import StyleSplit.Proofs.Block.Append
import StyleSplit.Proofs.Routing.Issues

/-! Blocks without what is known of where their text comes from: routing does to them what
it does to all blocks, whichever map it reads. -/

namespace StyleSplit

def Block.unmapped (block : Block) : Block :=
  { block with mappings := #[], sources := #[] }

namespace Block

theorem unmapped_record (block : Block) (text : String) (offset : Nat)
    (origin : SourcePosition) : (block.record text offset origin).unmapped = block.unmapped := by
  unfold record
  split <;> rfl

theorem unmapped_foldl_record (block : Block) (text : String)
    (origins : List (Nat × SourcePosition)) :
    (origins.foldl (fun block origin =>
      block.record text origin.1 origin.2) block).unmapped = block.unmapped := by
  induction origins generalizing block with
  | nil => rfl
  | cons origin origins ih => rw [List.foldl_cons, ih, unmapped_record]

theorem unmapped_append (block : Block) (text : String)
    (origins : List (Nat × SourcePosition)) :
    (block.append text origins).unmapped = block.unmapped.append text [] :=
  congrArg (fun block => { block with
      text := block.text ++ text, cursor := block.cursor.advance text })
    (unmapped_foldl_record block text origins)

end Block

namespace Registry

def unmapped (registry : Registry) : Registry :=
  { registry with blocks := registry.blocks.map Block.unmapped }

variable (registry : Registry)

theorem unmapped_new (documentName : String) (policy : ReopenPolicy) :
    (new documentName policy).unmapped = new documentName policy := by
  simp [unmapped, new, Block.unmapped, Block.document]

theorem unmapped_create (name outputName : String) :
    registry.unmapped.create name outputName =
      ((registry.create name outputName).1.unmapped, (registry.create name outputName).2) := by
  simp [unmapped, create, Block.unmapped, Block.named]

theorem unmapped_openBlock (name : String) (openedAt : Span) :
    (registry.openBlock name openedAt).1.unmapped =
      (registry.unmapped.openBlock name openedAt).1 := by
  have hpolicy : registry.unmapped.policy = registry.policy := rfl
  have hlatest : registry.unmapped.latest = registry.latest := rfl
  have hnext : registry.unmapped.nextName name = registry.nextName name := rfl
  unfold openBlock getOrCreate
  rw [hpolicy, hlatest, hnext, unmapped_create, unmapped_create]
  by_cases hnew : registry.policy = .separate ∧ (registry.latest.lookup name).isSome
  · rw [if_pos hnew, if_pos hnew]
    rfl
  · rw [if_neg hnew, if_neg hnew]
    cases registry.latest.lookup name <;> rfl

theorem block_unmapped (id : Nat) :
    registry.unmapped.block id = (registry.block id).unmapped := by
  rw [block, block, Array.getD_eq_getD_getElem?, Array.getD_eq_getD_getElem?, unmapped,
    Array.getElem?_map]
  cases registry.blocks[id]? <;> rfl

theorem unmapped_closeBlock (name : String) (closedAt : Span) :
    registry.unmapped.closeBlock name closedAt =
      (registry.closeBlock name closedAt).map fun closed => (closed.1.unmapped, closed.2) := by
  have hactive : registry.unmapped.active = registry.active.unmapped :=
    registry.block_unmapped registry.activeId
  unfold closeBlock
  rw [hactive]
  dsimp only [Block.unmapped]
  split
  · rfl
  · split <;> rfl

theorem unmapped_appendActive (text : String) (origins : List (Nat × SourcePosition)) :
    (registry.appendActive text origins).unmapped = registry.unmapped.appendActive text [] := by
  have hblocks : (registry.appendActive text origins).unmapped.blocks =
      (registry.unmapped.appendActive text []).blocks := by
    apply Array.ext_getElem?
    intro id
    rw [unmapped, appendActive, appendActive, unmapped, Array.getElem?_map, Array.getElem?_modify,
      Array.getElem?_modify, Array.getElem?_map]
    change Option.map _ (if registry.activeId = id then _ else _) =
      if registry.activeId = id then _ else _
    split
    · rw [Option.map_map, Option.map_map]
      exact congrArg (Option.map · registry.blocks[id]?)
        (funext fun block => Block.unmapped_append block text origins)
    · rfl
  exact congrArg (fun blocks => { registry with blocks }) hblocks

theorem unclosed_unmapped : registry.unmapped.unclosed = registry.unclosed := by
  refine List.map_congr_left fun entry _ => ?_
  rw [block_unmapped]
  rfl

end Registry

namespace Routing

def State.unmapped (state : State) : State :=
  { state with registry := state.registry.unmapped }

theorem State.unmapped_step (state : State) (text : String) (map : Option SourceMap)
    (index : LineIndex) (rule : Rule) :
    (state.step text map index rule).unmapped = state.unmapped.step text none index rule := by
  unfold step
  split
  · exact congrArg (State.mk · state.mismatches) (state.registry.unmapped_openBlock _ _)
  · rename_i name _
    have hclose := state.registry.unmapped_closeBlock name rule.span
    dsimp only [unmapped]
    rw [hclose]
    cases state.registry.closeBlock name rule.span <;> rfl
  · rfl
  · exact congrArg (State.mk · state.mismatches) (state.registry.unmapped_appendActive _ _)
  · exact congrArg (State.mk · state.mismatches) (state.registry.unmapped_appendActive _ _)

theorem unmapped_foldl (state : State) (text : String) (map : Option SourceMap)
    (index : LineIndex) (rules : List Rule) :
    (rules.foldl (fun (state : State) rule => state.step text map index rule) state).unmapped =
      rules.foldl (fun (state : State) rule => state.step text none index rule)
        state.unmapped := by
  induction rules generalizing state with
  | nil => rfl
  | cons rule rules ih => rw [List.foldl_cons, ih, State.unmapped_step, List.foldl_cons]

theorem unmapped_stateAfter (path text : String) (map : Option (Except MapError SourceMap))
    (options : Options) (rules : List Rule) :
    (stateAfter ⟨path, text, map⟩ options rules).unmapped =
      stateAfter ⟨path, text, none⟩ options rules := by
  rw [stateAfter, unmapped_foldl, stateAfter, usableMap_of_none options rfl]
  exact congrArg (fun registry => rules.foldl _ (State.mk registry []))
    (Registry.unmapped_new (Path.fileName path) options.reopen)

/-- Whichever map is read, the blocks are those of a document without a map, but for what is
known of where their text comes from. -/
theorem unmapped_ofStylesheet (path text : String) (map : Option (Except MapError SourceMap))
    (stylesheet : Stylesheet) (options : Options) :
    (ofStylesheet ⟨path, text, map⟩ stylesheet options).blocks.map Block.unmapped =
      (ofStylesheet ⟨path, text, none⟩ stylesheet options).blocks := by
  cases hproblems : stylesheet.problems with
  | cons problem problems =>
      rw [ofStylesheet, hproblems, ofStylesheet, hproblems]
      rfl
  | nil =>
      rw [(ofStylesheet_eq_stateAfter _ options hproblems).1,
        (ofStylesheet_eq_stateAfter _ options hproblems).1, ← unmapped_stateAfter path text map]
      exact Array.toList_map.symm

theorem issues_ofStylesheet (path text : String) (map : Option (Except MapError SourceMap))
    {stylesheet : Stylesheet} (options : Options) (hclean : stylesheet.problems = []) :
    (ofStylesheet ⟨path, text, map⟩ stylesheet options).issues =
      (usableMap ⟨path, text, map⟩ options).2 ++
        (ofStylesheet ⟨path, text, none⟩ stylesheet options).issues := by
  have hnone : usableMap ⟨path, text, none⟩ options = (none, []) := usableMap_of_none options rfl
  rw [(ofStylesheet_eq_stateAfter _ options hclean).2,
    (ofStylesheet_eq_stateAfter _ options hclean).2, ← unmapped_stateAfter path text map,
    hnone, List.append_assoc, List.append_assoc, State.unmapped, Registry.unclosed_unmapped]
  rfl

theorem map_ofStylesheet_none (path text : String) (stylesheet : Stylesheet)
    (options : Options) : (ofStylesheet ⟨path, text, none⟩ stylesheet options).map = none := by
  unfold ofStylesheet
  split
  · rfl
  · rw [usableMap_of_none options rfl]

theorem invalidMap_not_mem_issues (path text : String) (stylesheet : Stylesheet)
    (options : Options) (reason : String) :
    .invalidMap reason ∉ (ofStylesheet ⟨path, text, none⟩ stylesheet options).issues := by
  intro hissue
  cases hproblems : stylesheet.problems with
  | cons problem problems =>
      rw [ofStylesheet, hproblems] at hissue
      cases List.mem_singleton.mp hissue
  | nil =>
      rw [(ofStylesheet_eq_stateAfter _ options hproblems).2, usableMap_of_none options rfl,
        mismatches_stateAfter, List.nil_append] at hissue
      rcases List.mem_append.mp hissue with hmismatch | hunclosed
      · exact Bool.false_ne_true (Delimiter.isNesting_of_mem_mismatches hmismatch).1
      · obtain ⟨entry, -, heq⟩ := List.mem_map.mp hunclosed
        cases heq

theorem ofStylesheet_of_sourceMaps (path text : String) (stylesheet : Stylesheet)
    {options : Options} (hoff : options.sourceMaps = false)
    (map : Option (Except MapError SourceMap)) :
    ofStylesheet ⟨path, text, map⟩ stylesheet options =
      ofStylesheet ⟨path, text, none⟩ stylesheet options := by
  unfold ofStylesheet usableMap
  rw [hoff]
  rfl

end Routing

end StyleSplit
