import StyleSplit.Outcome
import StyleSplit.Proofs.Routing.Issues

/-! What becomes of the blocks of a document: the first block of each path is written, and
every other one gives an issue that names it. -/

namespace StyleSplit

def Issue.isCollision : Issue → Bool
  | .collision _ _ _ => true
  | _ => false

theorem Issue.isCollision_of_isNesting {issue : Issue} (h : issue.isNesting = true) :
    issue.isCollision = false := by
  cases issue with
  | mismatch => rfl
  | unclosed => rfl
  | parse | collision | invalidMap | internal => cases h

namespace Outcome

/-- Blocks in order, each with the first of those before it that has its path. -/
def claims (path : Block → String) (earlier : List Block) :
    List Block → List (Block × Option Block)
  | [] => []
  | block :: blocks =>
      (block, earlier.find? fun other => path other = path block) ::
        claims path (earlier ++ [block]) blocks

def firstBlocks (path : Block → String) (blocks : List Block) : List Block :=
  ((claims path [] blocks).filter (·.2.isNone)).map (·.1)

def collisionOf (path : Block → String) (block owner : Block) : Issue :=
  .collision (path block) (if owner.isDocument then none else some owner.identity)
    block.identity

/-- One issue for each of the other blocks, which names the first block with its path. -/
def collisions (path : Block → String) (blocks : List Block) : List Issue :=
  (claims path [] blocks).filterMap fun claim => claim.2.map (collisionOf path claim.1)

variable {path : Block → String}

theorem getElem?_claims (earlier blocks : List Block) (id : Nat) :
    (claims path earlier blocks)[id]? = blocks[id]?.map fun block =>
      (block, (earlier ++ blocks.take id).find? fun other => path other = path block) := by
  induction blocks generalizing earlier id with
  | nil => rfl
  | cons block blocks ih =>
      cases id with
      | zero => simp [claims]
      | succ id => simp [claims, ih]

/-- The table of claimed paths has the first block of each path so far. -/
theorem resolve_eq {render : Block → Output} (hpath : ∀ block, (render block).path = path block)
    (claimed : List (String × Block)) (earlier blocks : List Block)
    (hclaimed : ∀ wanted, claimed.lookup wanted =
      earlier.find? fun block => path block = wanted) :
    resolve claimed (blocks.map fun block => (block, render block)) =
      (((claims path earlier blocks).filter (·.2.isNone)).map fun claim => render claim.1,
        (claims path earlier blocks).filterMap fun claim =>
          claim.2.map (collisionOf path claim.1)) := by
  induction blocks generalizing claimed earlier with
  | nil => rfl
  | cons block blocks ih =>
      rw [List.map_cons, resolve, claims, hpath, hclaimed]
      cases howner : earlier.find? fun other => path other = path block with
      | some owner =>
          have hnext (wanted : String) : claimed.lookup wanted =
              (earlier ++ [block]).find? fun block => path block = wanted := by
            rw [List.find?_append, hclaimed]
            by_cases hwanted : path block = wanted
            · subst hwanted
              rw [howner]
              rfl
            · simp [hwanted]
          rw [ih claimed (earlier ++ [block]) hnext]
          rfl
      | none =>
          have hnext (wanted : String) : ((path block, block) :: claimed).lookup wanted =
              (earlier ++ [block]).find? fun block => path block = wanted := by
            rw [List.find?_append, List.lookup_cons, hclaimed]
            by_cases hwanted : path block = wanted
            · subst hwanted
              simp [howner]
            · have hne : (wanted == path block) = false := by simpa using Ne.symm hwanted
              simp [hne, hwanted]
          dsimp only
          rw [ih _ (earlier ++ [block]) hnext]
          rfl

theorem nodup_resolve (claimed : List (String × Block)) (rendered : List (Block × Output)) :
    ((resolve claimed rendered).1.map (·.path)).Nodup ∧
      ∀ output ∈ (resolve claimed rendered).1, claimed.lookup output.path = none := by
  induction rendered generalizing claimed with
  | nil => simp [resolve]
  | cons entry rendered ih =>
      obtain ⟨block, output⟩ := entry
      rw [resolve]
      cases howner : claimed.lookup output.path with
      | some owner => exact ih claimed
      | none =>
          obtain ⟨hnodup, hfree⟩ := ih ((output.path, block) :: claimed)
          dsimp only
          rw [List.map_cons, List.nodup_cons, List.forall_mem_cons]
          have hother : ∀ other ∈ (resolve ((output.path, block) :: claimed) rendered).1,
              other.path ≠ output.path ∧ claimed.lookup other.path = none := by
            intro other hmem
            have hnone := hfree other hmem
            rw [List.lookup_cons] at hnone
            split at hnone
            · cases hnone
            · rename_i hne
              exact ⟨by simpa using hne, hnone⟩
          refine ⟨⟨?_, hnodup⟩, howner, fun other hmem => (hother other hmem).2⟩
          intro hmem
          obtain ⟨other, hmem, hsame⟩ := List.mem_map.mp hmem
          exact (hother other hmem).1 hsame

theorem owner_mem_firstBlocks {blocks : List Block} {block owner : Block}
    (hclaim : (block, some owner) ∈ claims path [] blocks) :
    path owner = path block ∧ owner ∈ firstBlocks path blocks := by
  obtain ⟨id, hid⟩ := List.mem_iff_getElem?.mp hclaim
  rw [getElem?_claims, List.nil_append] at hid
  obtain ⟨claimer, -, hpair⟩ := Option.map_eq_some_iff.mp hid
  obtain ⟨rfl, howner⟩ := Prod.mk.inj hpair
  obtain ⟨hpath, first, last, htake, hfirst⟩ := List.find?_eq_some_iff_append.mp howner
  have hsame : path owner = path claimer := of_decide_eq_true hpath
  refine ⟨hsame, ?_⟩
  have hblocks : blocks = first ++ owner :: (last ++ blocks.drop id) := by
    conv_lhs => rw [← List.take_append_drop id blocks, htake]
    rw [List.append_assoc]
    rfl
  have hnone : (first.find? fun other => path other = path owner) = none := by
    rw [List.find?_eq_none]
    intro other hother
    have hne := hfirst other hother
    rw [hsame]
    simpa using hne
  have hfree : (claims path [] blocks)[first.length]? = some (owner, none) := by
    rw [getElem?_claims, hblocks, List.getElem?_append_right (Nat.le_refl _),
      List.take_left, List.nil_append]
    simp [hnone]
  exact List.mem_map.mpr ⟨_, List.mem_filter.mpr ⟨List.mem_of_getElem? hfree, rfl⟩, rfl⟩

theorem filter_isCollision_collisions (path : Block → String) (blocks : List Block) :
    (collisions path blocks).filter Issue.isCollision = collisions path blocks := by
  rw [List.filter_eq_self]
  intro issue hissue
  obtain ⟨claim, -, hclaim⟩ := List.mem_filterMap.mp hissue
  obtain ⟨owner, -, rfl⟩ := Option.map_eq_some_iff.mp hclaim
  rfl

end Outcome

namespace Routing

theorem exists_main (document : Document) {stylesheet : Stylesheet} (options : Options)
    (hclean : stylesheet.problems = []) :
    ∃ main others, (ofStylesheet document stylesheet options).blocks = main :: others ∧
      main.isDocument = true ∧ ∀ block ∈ others, block.isDocument = false := by
  obtain ⟨hblocks, -⟩ := ofStylesheet_eq_stateAfter document options hclean
  have hlabels := (tracks_stateAfter document options stylesheet.rules).follows.labels
  rw [← hblocks] at hlabels
  obtain ⟨main, others, hmain, hlabel, hothers⟩ := List.map_eq_cons_iff.mp hlabels
  refine ⟨main, others, hmain, congrArg Prod.snd hlabel, ?_⟩
  intro block hblock
  have hmem := List.mem_map_of_mem (f := fun block => (block.identity, block.isDocument)) hblock
  rw [hothers] at hmem
  obtain ⟨name, -, hname⟩ := List.mem_map.mp hmem
  exact (congrArg Prod.snd hname).symm

theorem invalidMap_or_isNesting {document : Document} {stylesheet : Stylesheet}
    {options : Options} {issue : Issue} (hclean : stylesheet.problems = [])
    (hissue : issue ∈ (ofStylesheet document stylesheet options).issues) :
    (∃ reason, issue = .invalidMap reason) ∨ issue.isNesting = true := by
  rw [(ofStylesheet_eq_stateAfter document options hclean).2, mismatches_stateAfter,
    List.mem_append, List.mem_append] at hissue
  rcases hissue with (hmap | hmismatch) | hunclosed
  · exact .inl (exists_of_mem_usableMap hmap)
  · exact .inr (Delimiter.isNesting_of_mem_mismatches hmismatch).1
  · obtain ⟨entry, -, rfl⟩ := List.mem_map.mp hunclosed
    exact .inr rfl

theorem isCollision_of_mem_issues {document : Document} {stylesheet : Stylesheet}
    {options : Options} {issue : Issue}
    (hissue : issue ∈ (ofStylesheet document stylesheet options).issues) :
    issue.isCollision = false := by
  cases hproblems : stylesheet.problems with
  | cons problem problems =>
      rw [ofStylesheet, hproblems] at hissue
      rw [List.mem_singleton.mp hissue]
      rfl
  | nil =>
      rcases invalidMap_or_isNesting hproblems hissue with ⟨reason, rfl⟩ | hnesting
      · rfl
      · exact Issue.isCollision_of_isNesting hnesting

end Routing

namespace Outcome

theorem path_render (block : Block) (documentPath : String) (options : Options)
    (map : Option SourceMap) :
    (block.render documentPath options map).path = block.path documentPath options := by
  cases map <;> rfl

/-- The outputs are the first blocks with their paths, and the issues about paths come
last. -/
theorem ofStylesheet_eq (document : Document) (stylesheet : Stylesheet) (options : Options) :
    let routing := Routing.ofStylesheet document stylesheet options
    let path := fun block : Block => block.path document.path options
    ofStylesheet document stylesheet options =
      ⟨document.path,
        (firstBlocks path routing.blocks).map (·.render document.path options routing.map),
        routing.issues ++ collisions path routing.blocks⟩ := by
  intro routing path
  have hresolve := resolve_eq (fun block => path_render block document.path options routing.map)
    [] [] routing.blocks fun _ => rfl
  unfold ofStylesheet
  rw [firstBlocks, List.map_map]
  exact congrArg (fun resolved => Outcome.mk document.path resolved.1
    (routing.issues ++ resolved.2)) hresolve

/-- A stylesheet with a problem gives no output, and the first problem is the only issue.
Otherwise the outputs are those of the first block of each path, in order; that of the
document is first and has its path. For each of the other blocks there is one issue about
paths, in order, which names the block that is written in its place. -/
theorem outputs_ofStylesheet (document : Document) (stylesheet : Stylesheet)
    (options : Options) :
    let routing := Routing.ofStylesheet document stylesheet options
    let outcome := ofStylesheet document stylesheet options
    let path := fun block : Block => block.path document.path options
    (∀ problem problems, stylesheet.problems = problem :: problems →
      outcome.outputs = [] ∧ outcome.issues = [.parse problem]) ∧
    (stylesheet.problems = [] →
      outcome.outputs = (firstBlocks path routing.blocks).map
        (·.render document.path options routing.map) ∧
      outcome.outputs.map (·.path) = (firstBlocks path routing.blocks).map path ∧
      (outcome.outputs.map (·.path)).Nodup ∧
      outcome.issues = routing.issues ++ collisions path routing.blocks ∧
      outcome.issues.filter Issue.isCollision = collisions path routing.blocks ∧
      (∀ block owner, (block, some owner) ∈ claims path [] routing.blocks →
        path owner = path block ∧ owner ∈ firstBlocks path routing.blocks) ∧
      ∃ main others, routing.blocks = main :: others ∧ main.isDocument = true ∧
        (∀ block ∈ others, block.isDocument = false) ∧ path main = document.path ∧
        (firstBlocks path routing.blocks).head? = some main) := by
  intro routing outcome path
  refine ⟨?_, ?_⟩
  · intro problem problems hproblems
    have hrouting : routing = ⟨[], [.parse problem], none⟩ := by
      unfold routing Routing.ofStylesheet
      rw [hproblems]
    unfold outcome ofStylesheet
    rw [show Routing.ofStylesheet document stylesheet options = routing from rfl, hrouting]
    exact ⟨rfl, rfl⟩
  · intro hclean
    obtain ⟨main, others, hmain, hdocument, hothers⟩ :=
      Routing.exists_main document options hclean
    have hpath (block : Block) := path_render block document.path options routing.map
    have hresolve := resolve_eq hpath [] [] routing.blocks fun _ => rfl
    have houtputs : outcome.outputs = (firstBlocks path routing.blocks).map
        (·.render document.path options routing.map) := by
      refine (congrArg Prod.fst hresolve).trans ?_
      rw [firstBlocks, List.map_map]
      rfl
    have hissues : outcome.issues = routing.issues ++ collisions path routing.blocks :=
      congrArg (routing.issues ++ Prod.snd ·) hresolve
    refine ⟨houtputs, ?_, ?_, hissues, ?_, ?_, main, others, hmain, hdocument, hothers, ?_, ?_⟩
    · rw [houtputs, List.map_map]
      exact List.map_congr_left fun block _ => hpath block
    · exact (nodup_resolve [] _).1
    · rw [hissues, List.filter_append]
      have hnone : routing.issues.filter Issue.isCollision = [] := by
        rw [List.filter_eq_nil_iff]
        intro issue hissue
        rw [Routing.isCollision_of_mem_issues hissue]
        exact Bool.false_ne_true
      rw [hnone, List.nil_append, filter_isCollision_collisions]
    · intro block owner hclaim
      exact owner_mem_firstBlocks hclaim
    · exact if_pos hdocument
    · change (firstBlocks path (Routing.ofStylesheet document stylesheet options).blocks).head? = _
      rw [hmain]
      rfl

theorem outputs_ofStylesheet_digest :
    let document : Document := {
      path := "css/a7d40a.css"
      text := "/*! start:a.css */.x\x7b\x7d/*! end:a.css */\n" ++
        "/*! start:b.css */.x\x7b\x7d/*! end:b.css */\n/*! start:c.css */.z\x7b\x7d" ++
        "/*! end:c.css */" }
    let options : Options := { filename := ⟨"[contenthash].css"⟩, hash := { length := 6 } }
    let stylesheet := Stylesheet.ofText document.text
    stylesheet.problems = [] ∧
      (ofStylesheet document stylesheet options).outputs.map (·.path) =
        ["css/a7d40a.css", "css/b287b4.css"] ∧
      ((ofStylesheet document stylesheet options).outputs.map (·.path)).Nodup ∧
      (ofStylesheet document stylesheet options).issues.filter Issue.isCollision =
        [.collision "css/b287b4.css" (some "a.css") "b.css",
          .collision "css/a7d40a.css" none "c.css"] := by
  intro document options stylesheet
  have hclean : stylesheet.problems = [] := by decide +kernel
  let main : Block := .document "a7d40a.css"
  let first := (Block.named "a.css" "a.css").append ".x\x7b\x7d" []
  let second := (Block.named "b.css" "b.css").append ".x\x7b\x7d" []
  let third := (Block.named "c.css" "c.css").append ".z\x7b\x7d" []
  have hblocks : (Routing.ofStylesheet document stylesheet options).blocks =
      [main, first, second, third] := by decide +kernel
  let path (block : Block) := block.path document.path options
  have hclaims : claims path [] [main, first, second, third] =
      [(main, none), (first, none), (second, some first), (third, some main)] := by
    have hmain : path main = "css/a7d40a.css" := by decide
    have hfirst : path first = "css/b287b4.css" := by decide +kernel
    have hsecond : path second = "css/b287b4.css" := by decide +kernel
    have hthird : path third = "css/a7d40a.css" := by decide +kernel
    simp [claims, hmain, hfirst, hsecond, hthird]
  obtain ⟨-, hall⟩ := outputs_ofStylesheet document stylesheet options
  obtain ⟨-, hpaths, hnodup, -, hcollisions, -, -⟩ := hall hclean
  rw [hblocks] at hpaths hcollisions
  rw [firstBlocks, hclaims] at hpaths
  rw [collisions, hclaims] at hcollisions
  exact ⟨hclean, hpaths.trans (by decide +kernel), hnodup,
    hcollisions.trans (by decide +kernel)⟩

end Outcome

end StyleSplit
