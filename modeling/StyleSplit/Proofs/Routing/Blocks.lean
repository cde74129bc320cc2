import StyleSplit.Proofs.Routing.Simulation

/-! What the blocks of a clean document are: those that the stack machine names,
and in each of them the rules that the machine routes to it. -/

namespace StyleSplit.Routing

def originsOf (map : Option SourceMap) (index : LineIndex) (rule : Rule) :
    List (Nat × SourcePosition) :=
  map.elim [] fun map => origins map index rule

/-- A state is where the machine is, after it routed the given rules. -/
structure State.Tracks (state : State) (text : String)
    (origins : Rule → List (Nat × SourcePosition)) (policy : ReopenPolicy)
    (documentName : String) (nesting : Nesting) (routed : List (Nat × Rule)) : Prop where
  follows : state.registry.Follows policy documentName nesting
  holds : state.registry.Holds text origins routed
  routed_lt : ∀ entry ∈ routed, entry.1 < state.registry.blocks.size

namespace State.Tracks

variable {state : State} {text : String} {map : Option SourceMap} {index : LineIndex}
  {policy : ReopenPolicy} {documentName : String} {nesting : Nesting}
  {routed : List (Nat × Rule)}

theorem of_step (h : state.Tracks text (originsOf map index) policy documentName nesting routed)
    {next : State} {rule : Rule}
    (hfollows : next.registry.Follows policy documentName (nesting.step policy rule))
    (hholds : next.registry.Holds text (originsOf map index)
      (routed ++ Nesting.route policy nesting [rule])) :
    next.Tracks text (originsOf map index) policy documentName (nesting.step policy rule)
      (routed ++ Nesting.route policy nesting [rule]) := by
  have hsize : state.registry.blocks.size ≤ next.registry.blocks.size := by
    rw [h.follows.size_eq, hfollows.size_eq]
    exact Nat.succ_le_succ (nesting.length_names_le_step policy rule)
  refine ⟨hfollows, hholds, ?_⟩
  intro entry hentry
  apply Nat.lt_of_lt_of_le _ hsize
  rcases List.mem_append.mp hentry with hold | hnew
  · exact h.routed_lt entry hold
  · rw [nesting.eq_of_mem_route_singleton hnew]
    exact h.follows.top_lt

theorem route_singleton_of_not_isContent {rule : Rule} (h : rule.isContent = false) :
    routed ++ Nesting.route policy nesting [rule] = routed := by
  rw [Nesting.route, h]
  exact List.append_nil routed

theorem content
    (h : state.Tracks text (originsOf map index) policy documentName nesting routed)
    {rule : Rule} (hcontent : rule.isContent = true)
    (hstep : nesting.step policy rule = nesting) :
    Tracks { state with registry :=
        state.registry.appendActive (rule.text text) (originsOf map index rule) }
      text (originsOf map index) policy documentName (nesting.step policy rule)
      (routed ++ Nesting.route policy nesting [rule]) := by
  apply h.of_step
  · rw [hstep]
    exact h.follows.appendActive (rule.text text) (originsOf map index rule)
  · rw [Nesting.route, if_pos hcontent, ← h.follows.activeId_eq]
    exact h.holds.appendActive rule

theorem opening
    (h : state.Tracks text (originsOf map index) policy documentName nesting routed)
    {rule : Rule} {name : String} (hclass : rule.commentClass? = some (.opening name)) :
    Tracks { state with registry := (state.registry.openBlock name rule.span).1 }
      text (originsOf map index) policy documentName (nesting.step policy rule)
      (routed ++ Nesting.route policy nesting [rule]) := by
  have hstep : nesting.step policy rule = nesting.opened policy name rule.span := by
    simp [Nesting.step, hclass]
  apply h.of_step
  · rw [hstep]
    exact h.follows.openBlock name rule.span
  · rw [route_singleton_of_not_isContent (by simp [Rule.isContent, hclass])]
    exact h.holds.openBlock h.routed_lt name rule.span

theorem closed
    (h : state.Tracks text (originsOf map index) policy documentName nesting routed)
    {rule : Rule} {name : String} {closed : Registry × Nat}
    (hclass : rule.commentClass? = some (.closing name))
    (hclosed : state.registry.closeBlock name rule.span = .ok closed) :
    Tracks { state with registry := closed.1 } text (originsOf map index) policy documentName
      (nesting.step policy rule) (routed ++ Nesting.route policy nesting [rule]) := by
  have hstep : nesting.step policy rule = nesting.closed name := by
    simp [Nesting.step, hclass]
  have hclose := h.follows.closeBlock name rule.span
  rw [hclosed] at hclose
  obtain ⟨hfollows, hblocks⟩ := hclose
  apply h.of_step
  · rw [hstep]
    exact hfollows
  · rw [route_singleton_of_not_isContent (by simp [Rule.isContent, hclass])]
    intro id block hblock
    dsimp only at hblock
    rw [hblocks] at hblock
    exact h.holds id block hblock

theorem unchanged
    (h : state.Tracks text (originsOf map index) policy documentName nesting routed)
    {next : State} {rule : Rule} (hregistry : next.registry = state.registry)
    (hcontent : rule.isContent = false) (hstep : nesting.step policy rule = nesting) :
    next.Tracks text (originsOf map index) policy documentName (nesting.step policy rule)
      (routed ++ Nesting.route policy nesting [rule]) := by
  apply h.of_step
  · rw [hstep, hregistry]
    exact h.follows
  · rw [route_singleton_of_not_isContent hcontent, hregistry]
    exact h.holds

/-- A step of the run is a step of the machine. -/
theorem step
    (h : state.Tracks text (originsOf map index) policy documentName nesting routed)
    (rule : Rule) :
    (state.step text map index rule).Tracks text (originsOf map index) policy
      documentName (nesting.step policy rule)
      (routed ++ Nesting.route policy nesting [rule]) := by
  have hclass : rule.comment?.map CommentClass.ofBody = rule.commentClass? := rfl
  unfold State.step
  rw [hclass]
  cases hcases : rule.commentClass? with
  | none => exact h.content (by simp [Rule.isContent, hcases]) (by simp [Nesting.step, hcases])
  | some commentClass =>
      cases commentClass with
      | content =>
          exact h.content (by simp [Rule.isContent, hcases]) (by simp [Nesting.step, hcases])
      | opening name => exact h.opening hcases
      | closing name =>
          dsimp only
          cases hclosed : state.registry.closeBlock name rule.span with
          | ok closed => exact h.closed hcases hclosed
          | error issue =>
              have hclose := h.follows.closeBlock name rule.span
              rw [hclosed] at hclose
              apply h.unchanged
              · rfl
              · simp [Rule.isContent, hcases]
              · simpa [Nesting.step, hcases] using hclose
      | stalePragma =>
          apply h.unchanged
          · rfl
          · simp [Rule.isContent, hcases]
          · simp [Nesting.step, hcases]

theorem run
    (h : state.Tracks text (originsOf map index) policy documentName nesting routed)
    (rules : List Rule) :
    (rules.foldl (fun (state : State) rule => state.step text map index rule) state).Tracks
      text (originsOf map index) policy documentName (nesting.run policy rules)
      (routed ++ Nesting.route policy nesting rules) := by
  induction rules generalizing state nesting routed with
  | nil => simpa [Nesting.run, Nesting.route] using h
  | cons rule rules ih =>
      have hrest := ih (h.step rule)
      rw [List.append_assoc, ← Nesting.route_cons] at hrest
      exact hrest

end State.Tracks

theorem State.tracks_new (documentName text : String)
    (origins : Rule → List (Nat × SourcePosition)) (policy : ReopenPolicy) :
    State.Tracks { registry := .new documentName policy } text origins policy documentName
      {} [] :=
  ⟨Registry.follows_new documentName policy, Registry.holds_new documentName policy, by simp⟩

theorem problems_eq_nil {text : String} (hclean : (Stylesheet.ofText text).isClean = true) :
    (Stylesheet.ofText text).problems = [] :=
  List.isEmpty_iff.mp hclean

theorem map_ofDocument {document : Document} {options : Options}
    (hclean : (Stylesheet.ofText document.text).isClean = true) :
    (ofDocument document options).map = (usableMap document options).1 := by
  rw [ofDocument, ofStylesheet, problems_eq_nil hclean]

def stateAfter (document : Document) (options : Options) (rules : List Rule) : State :=
  rules.foldl (fun (state : State) rule =>
      state.step document.text (usableMap document options).1 (.ofText document.text) rule)
    { registry := .new (Path.fileName document.path) options.reopen }

theorem tracks_stateAfter (document : Document) (options : Options) (rules : List Rule) :
    (stateAfter document options rules).Tracks document.text
      (originsOf (usableMap document options).1 (.ofText document.text)) options.reopen
      (Path.fileName document.path) (Nesting.run options.reopen {} rules)
      (Nesting.route options.reopen {} rules) :=
  (State.tracks_new (Path.fileName document.path) document.text
    (originsOf (usableMap document options).1 (.ofText document.text))
    options.reopen).run rules

theorem ofStylesheet_eq_stateAfter (document : Document) {stylesheet : Stylesheet}
    (options : Options) (hclean : stylesheet.problems = []) :
    let final := stateAfter document options stylesheet.rules
    (ofStylesheet document stylesheet options).blocks = final.registry.blocks.toList ∧
      (ofStylesheet document stylesheet options).issues =
        (usableMap document options).2 ++ final.mismatches ++ final.registry.unclosed := by
  rw [ofStylesheet, hclean]
  exact ⟨rfl, rfl⟩

theorem ofDocument_eq_stateAfter {document : Document} (options : Options)
    (hclean : (Stylesheet.ofText document.text).isClean = true) :
    let final := stateAfter document options (Stylesheet.ofText document.text).rules
    (ofDocument document options).blocks = final.registry.blocks.toList ∧
      (ofDocument document options).issues =
        (usableMap document options).2 ++ final.mismatches ++ final.registry.unclosed :=
  ofStylesheet_eq_stateAfter document options (problems_eq_nil hclean)

theorem exists_registry {document : Document} (options : Options)
    (hclean : (Stylesheet.ofText document.text).isClean = true) :
    ∃ registry : Registry, (ofDocument document options).blocks = registry.blocks.toList ∧
      registry.Follows options.reopen (Path.fileName document.path)
        (Nesting.run options.reopen {} (Stylesheet.ofText document.text).rules) ∧
      registry.Holds document.text
        (originsOf (usableMap document options).1 (.ofText document.text))
        (Nesting.route options.reopen {} (Stylesheet.ofText document.text).rules) ∧
      ∀ entry ∈ Nesting.route options.reopen {} (Stylesheet.ofText document.text).rules,
        entry.1 < registry.blocks.size := by
  obtain ⟨hfollows, hholds, hrouted⟩ :=
    tracks_stateAfter document options (Stylesheet.ofText document.text).rules
  exact ⟨_, (ofDocument_eq_stateAfter options hclean).1, hfollows, hholds, hrouted⟩

/-- Every block is what it was when it was made, with its rules appended. -/
theorem block_eq_appendRules {document : Document} {options : Options} {id : Nat}
    {block : Block} (hclean : (Stylesheet.ofText document.text).isClean = true)
    (hblock : (ofDocument document options).blocks[id]? = some block) :
    block = block.blank.appendRules document.text
      (originsOf (usableMap document options).1 (.ofText document.text))
      (Nesting.routedTo options.reopen (Stylesheet.ofText document.text).rules id) := by
  obtain ⟨registry, hblocks, -, hholds, -⟩ := exists_registry options hclean
  rw [hblocks, Array.getElem?_toList] at hblock
  exact hholds id block hblock

theorem text_of_block {document : Document} {options : Options} {id : Nat} {block : Block}
    (hclean : (Stylesheet.ofText document.text).isClean = true)
    (hblock : (ofDocument document options).blocks[id]? = some block) :
    block.text = String.join
      ((Nesting.routedTo options.reopen (Stylesheet.ofText document.text).rules id).map
        (·.text document.text)) := by
  rw [block_eq_appendRules hclean hblock, Block.text_appendRules]
  exact String.empty_append

end StyleSplit.Routing
