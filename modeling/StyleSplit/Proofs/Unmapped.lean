import StyleSplit.Proofs.Outcome
import StyleSplit.Proofs.Routing.Unmapped

/-! A document split with two maps: the map has no part in what is written but for the maps
and the lines that name them. -/

namespace StyleSplit

namespace Output

def pragma (output : Output) : String :=
  if output.map.isSome then Block.pragma output.path else ""

/-- Two outputs that are the same but for their maps and the lines that name these. -/
structure Agrees (first second : Output) : Prop where
  name : first.name = second.name
  path : first.path = second.path
  css : ∃ rules, first.css = rules ++ first.pragma ∧ second.css = rules ++ second.pragma

end Output

namespace Block

variable {documentPath : String} {options : Options}

theorem css_render_eq (block : Block) (map : Option SourceMap) :
    (block.render documentPath options map).css =
      block.text ++ "\n" ++ (block.render documentPath options map).pragma := by
  cases map with
  | none => exact String.append_empty.symm
  | some map => rfl

theorem agrees_render {first second : Block} (h : first.unmapped = second.unmapped)
    (firstMap secondMap : Option SourceMap) :
    (first.render documentPath options firstMap).Agrees
      (second.render documentPath options secondMap) := by
  have hpath : first.path documentPath options = second.path documentPath options :=
    congrArg (·.path documentPath options) h
  refine ⟨?_, ?_, first.text ++ "\n", first.css_render_eq firstMap, ?_⟩
  · have hname := congrArg Block.outputName h
    cases firstMap <;> cases secondMap <;> exact hname
  · rw [Outcome.path_render, Outcome.path_render, hpath]
  · have htext := congrArg Block.text h
    change first.text = second.text at htext
    rw [second.css_render_eq, htext]

end Block

namespace Outcome

section Claims

variable {path : Block → String} (change : Block → Block)

theorem claims_map (h : ∀ block, path (change block) = path block)
    (earlier blocks : List Block) :
    claims path (earlier.map change) (blocks.map change) =
      (claims path earlier blocks).map fun claim =>
        (change claim.1, claim.2.map change) := by
  induction blocks generalizing earlier with
  | nil => rfl
  | cons block blocks ih =>
      have hnext := ih (earlier ++ [block])
      rw [List.map_append, List.map_singleton] at hnext
      rw [List.map_cons, claims, claims, List.map_cons, hnext, List.find?_map]
      simp only [Function.comp_def, h]

theorem firstBlocks_map (h : ∀ block, path (change block) = path block)
    (blocks : List Block) :
    firstBlocks path (blocks.map change) = (firstBlocks path blocks).map change := by
  have hclaims := claims_map change h [] blocks
  rw [List.map_nil] at hclaims
  rw [firstBlocks, hclaims, List.filter_map, List.map_map, firstBlocks, List.map_map]
  simp [Function.comp_def]

theorem collisions_map (h : ∀ block, path (change block) = path block)
    (hlabel : ∀ block, (change block).identity = block.identity ∧
      (change block).isDocument = block.isDocument) (blocks : List Block) :
    collisions path (blocks.map change) = collisions path blocks := by
  have hclaims := claims_map change h [] blocks
  rw [List.map_nil] at hclaims
  rw [collisions, hclaims, List.filterMap_map, collisions]
  refine List.filterMap_congr fun claim _ => ?_
  obtain ⟨block, owner⟩ := claim
  cases owner with
  | none => rfl
  | some owner => simp [collisionOf, h, hlabel]

end Claims

variable (path text : String) (stylesheet : Stylesheet) (options : Options)

theorem unmapped_firstBlocks (map : Option (Except MapError SourceMap)) :
    (firstBlocks (·.path path options)
        (Routing.ofStylesheet ⟨path, text, map⟩ stylesheet options).blocks).map Block.unmapped =
      firstBlocks (·.path path options)
        (Routing.ofStylesheet ⟨path, text, none⟩ stylesheet options).blocks := by
  rw [← Routing.unmapped_ofStylesheet path text map, firstBlocks_map Block.unmapped fun _ => rfl]

theorem collisions_ofStylesheet (map : Option (Except MapError SourceMap)) :
    collisions (·.path path options)
        (Routing.ofStylesheet ⟨path, text, map⟩ stylesheet options).blocks =
      collisions (·.path path options)
        (Routing.ofStylesheet ⟨path, text, none⟩ stylesheet options).blocks := by
  rw [← Routing.unmapped_ofStylesheet path text map,
    collisions_map Block.unmapped (fun _ => rfl) fun _ => ⟨rfl, rfl⟩]

theorem ofStylesheet_of_problem (map : Option (Except MapError SourceMap))
    {problem : ParseProblem} {problems : List ParseProblem}
    (h : stylesheet.problems = problem :: problems) :
    ofStylesheet ⟨path, text, map⟩ stylesheet options = ⟨path, [], [.parse problem]⟩ := by
  rw [ofStylesheet, Routing.ofStylesheet, h]
  rfl

theorem agrees_outputs (first second : Option (Except MapError SourceMap)) :
    List.Forall₂ Output.Agrees (ofStylesheet ⟨path, text, first⟩ stylesheet options).outputs
      (ofStylesheet ⟨path, text, second⟩ stylesheet options).outputs := by
  have hblocks := (unmapped_firstBlocks path text stylesheet options first).trans
    (unmapped_firstBlocks path text stylesheet options second).symm
  rw [← List.forall₂_eq_eq_eq, List.forall₂_map_left_iff, List.forall₂_map_right_iff] at hblocks
  rw [ofStylesheet_eq, ofStylesheet_eq, List.forall₂_map_left_iff, List.forall₂_map_right_iff]
  exact hblocks.imp fun _ _ hblock => Block.agrees_render hblock _ _

theorem issues_eq (map : Option (Except MapError SourceMap)) :
    (ofStylesheet ⟨path, text, map⟩ stylesheet options).issues =
        (ofStylesheet ⟨path, text, none⟩ stylesheet options).issues ∨
      ∃ reason, (ofStylesheet ⟨path, text, map⟩ stylesheet options).issues =
        .invalidMap reason :: (ofStylesheet ⟨path, text, none⟩ stylesheet options).issues := by
  cases hproblems : stylesheet.problems with
  | cons problem problems =>
      rw [ofStylesheet_of_problem path text stylesheet options map hproblems,
        ofStylesheet_of_problem path text stylesheet options none hproblems]
      exact .inl rfl
  | nil =>
      rw [ofStylesheet_eq, ofStylesheet_eq]
      dsimp only
      rw [Routing.issues_ofStylesheet path text map options hproblems, collisions_ofStylesheet]
      rcases Routing.issues_usableMap ⟨path, text, map⟩ options with hnone | ⟨reason, hone⟩
      · rw [hnone]
        exact .inl rfl
      · rw [hone]
        exact .inr ⟨reason, rfl⟩

theorem invalidMap_not_mem_issues (reason : String) :
    .invalidMap reason ∉ (ofStylesheet ⟨path, text, none⟩ stylesheet options).issues := by
  intro hissue
  rw [ofStylesheet_eq] at hissue
  rcases List.mem_append.mp hissue with hrouting | hcollision
  · exact Routing.invalidMap_not_mem_issues path text stylesheet options reason hrouting
  · rw [← filter_isCollision_collisions] at hcollision
    exact Bool.false_ne_true (List.mem_filter.mp hcollision).2

/-- Either no output has a map, and it is what it is without one, or each of them has one,
and the line that names it. -/
theorem outputs_eq_or_mapped (map : Option (Except MapError SourceMap)) :
    (ofStylesheet ⟨path, text, map⟩ stylesheet options).outputs =
        (ofStylesheet ⟨path, text, none⟩ stylesheet options).outputs ∨
      List.Forall₂ (fun output plain => output.map.isSome = true ∧
          output.css = plain.css ++ Block.pragma output.path)
        (ofStylesheet ⟨path, text, map⟩ stylesheet options).outputs
        (ofStylesheet ⟨path, text, none⟩ stylesheet options).outputs := by
  have hplain := Routing.map_ofStylesheet_none path text stylesheet options
  rw [ofStylesheet_eq, ofStylesheet_eq]
  dsimp only
  rw [hplain, ← unmapped_firstBlocks path text stylesheet options map, List.map_map]
  cases (Routing.ofStylesheet ⟨path, text, map⟩ stylesheet options).map with
  | none => exact .inl rfl
  | some used =>
      refine .inr ?_
      rw [List.forall₂_map_left_iff, List.forall₂_map_right_iff, List.forall₂_same]
      intro block _
      exact ⟨rfl, rfl⟩

/-- Whatever map a stylesheet comes with, the same blocks are written to the same paths
with the same rules, and the same issues are told, but for one that may stand first and
says what is wrong with the map. Either all outputs have maps and the lines that name
them, or none has. Where no maps are wanted, that of the document is not looked at. -/
theorem agrees_ofStylesheet (path text : String) (stylesheet : Stylesheet)
    (options : Options) :
    let outcome map := ofStylesheet ⟨path, text, map⟩ stylesheet options
    (∀ first second, (outcome first).path = (outcome second).path ∧
      List.Forall₂ Output.Agrees (outcome first).outputs (outcome second).outputs) ∧
    (∀ map, (outcome map).issues = (outcome none).issues ∨
      ∃ reason, (outcome map).issues = .invalidMap reason :: (outcome none).issues) ∧
    (∀ reason, .invalidMap reason ∉ (outcome none).issues) ∧
    (∀ problem problems, stylesheet.problems = problem :: problems →
      ∀ map, outcome map = ⟨path, [], [.parse problem]⟩) ∧
    (∀ output ∈ (outcome none).outputs, output.map = none) ∧
    (∀ map, (outcome map).outputs = (outcome none).outputs ∨
      List.Forall₂ (fun output plain => output.map.isSome = true ∧
          output.css = plain.css ++ Block.pragma output.path)
        (outcome map).outputs (outcome none).outputs) ∧
    (options.sourceMaps = false → ∀ map, outcome map = outcome none) := by
  intro outcome
  refine ⟨?_, issues_eq path text stylesheet options,
    invalidMap_not_mem_issues path text stylesheet options, ?_, ?_,
    outputs_eq_or_mapped path text stylesheet options, ?_⟩
  · intro first second
    refine ⟨?_, agrees_outputs path text stylesheet options first second⟩
    unfold outcome
    rw [ofStylesheet_eq, ofStylesheet_eq]
  · intro problem problems hproblems map
    exact ofStylesheet_of_problem path text stylesheet options map hproblems
  · intro output houtput
    unfold outcome at houtput
    rw [ofStylesheet_eq, Routing.map_ofStylesheet_none] at houtput
    obtain ⟨block, -, rfl⟩ := List.mem_map.mp houtput
    rfl
  · intro hoff map
    unfold outcome ofStylesheet
    rw [Routing.ofStylesheet_of_sourceMaps path text stylesheet hoff map]

theorem agrees_ofStylesheet_digest :
    let text := "/*! start:a.css */.x\x7b\x7d/*! end:b.css */"
    let used : SourceMap := ⟨none, #["a.scss"], [], #[#[⟨0, some ⟨0, 1, 0⟩⟩]]⟩
    let named : Options := { filename := ⟨"[contenthash].css"⟩, hash := { length := 6 } }
    let outcome text map options := ofStylesheet ⟨"main.css", text, map⟩ (.ofText text) options
    (outcome text (some (.ok used)) named).outputs.map (fun output =>
        (output.path, output.css)) = [
      ("main.css", "\n/*# sourceMappingURL=main.css.map*/\n"),
      ("b287b4.css", ".x\x7b\x7d\n/*# sourceMappingURL=b287b4.css.map*/\n")] ∧
    List.Forall₂ Output.Agrees (outcome text (some (.ok used)) named).outputs
      (outcome text (some (.error .malformed)) named).outputs ∧
    outcome text (some (.ok used)) { sourceMaps := false } =
      outcome text none { sourceMaps := false } ∧
    ∃ problem, outcome ".a\x7b" (some (.ok used)) {} = ⟨"main.css", [], [.parse problem]⟩ := by
  intro text used named outcome
  obtain ⟨hagrees, -⟩ := agrees_ofStylesheet "main.css" text (.ofText text) named
  obtain ⟨-, -, -, -, -, -, hoff⟩ :=
    agrees_ofStylesheet "main.css" text (.ofText text) { sourceMaps := false }
  obtain ⟨-, -, -, hproblem, -⟩ :=
    agrees_ofStylesheet "main.css" ".a\x7b" (.ofText ".a\x7b") {}
  have hproblems : (Stylesheet.ofText ".a\x7b").problems =
      [⟨"missing '\x7d' to close rule", 0, ⟨1, 0⟩⟩] := by decide +kernel
  exact ⟨by decide +kernel, (hagrees _ _).2, hoff rfl _, _, hproblem _ _ hproblems _⟩

end Outcome

end StyleSplit
