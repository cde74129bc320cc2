import StyleSplit.Outcome
import StyleSplit.Proofs.Routing.Issues
import StyleSplit.Proofs.Stylesheet.Joined

/-! What a block is written to can be split again, and gives itself. -/

namespace StyleSplit.Routing

section Passive

variable {document : Document} (options : Options)

theorem issues_of_isPassive (hclean : (Stylesheet.ofText document.text).isClean = true)
    (hmap : document.map = none)
    (hpassive : ∀ rule ∈ (Stylesheet.ofText document.text).rules, rule.isPassive = true) :
    (ofDocument document options).issues = [] := by
  have hdelimiters : (Stylesheet.ofText document.text).rules.filterMap Rule.delimiter? = [] :=
    List.filterMap_eq_nil_iff.mpr fun rule hrule =>
      Rule.delimiter?_of_isPassive (hpassive rule hrule)
  rw [issues_ofDocument options hclean, usableMap_of_none options hmap, hdelimiters]
  rfl

theorem blocks_of_isPassive (hclean : (Stylesheet.ofText document.text).isClean = true)
    (hpassive : ∀ rule ∈ (Stylesheet.ofText document.text).rules, rule.isPassive = true) :
    ∃ block, (ofDocument document options).blocks = [block] ∧ block.isDocument = true ∧
      block.text = String.join (((Stylesheet.ofText document.text).rules.filter
        Rule.isContent).map (·.text document.text)) := by
  obtain ⟨registry, hblocks, hfollows, -, -⟩ := exists_registry options hclean
  have hlabels := hfollows.labels
  rw [Nesting.run_of_isPassive options.reopen {} hpassive, ← hblocks] at hlabels
  obtain ⟨block, hone, hlabel⟩ := List.map_eq_singleton_iff.mp hlabels
  refine ⟨block, hone, congrArg Prod.snd hlabel, ?_⟩
  have hblock : (ofDocument document options).blocks[0]? = some block := by rw [hone]; rfl
  rw [text_of_block hclean hblock, Nesting.routedTo_of_isPassive options.reopen hpassive]

theorem outcome_of_isPassive (hclean : (Stylesheet.ofText document.text).isClean = true)
    (hmap : document.map = none)
    (hpassive : ∀ rule ∈ (Stylesheet.ofText document.text).rules, rule.isPassive = true) :
    (Outcome.ofDocument document options).issues = [] ∧
      ∃ output, (Outcome.ofDocument document options).outputs = [output] ∧
        output.path = document.path ∧ output.map = none ∧
        output.css = String.join (((Stylesheet.ofText document.text).rules.filter
          Rule.isContent).map (·.text document.text)) ++ "\n" := by
  have hissues := issues_of_isPassive options hclean hmap hpassive
  obtain ⟨block, hblocks, hdocument, htext⟩ := blocks_of_isPassive options hclean hpassive
  have hnone := @map_ofDocument document options hclean
  rw [usableMap_of_none options hmap] at hnone
  rw [ofDocument] at hissues hnone hblocks
  have hresolve (output : Output) : Outcome.resolve [] [(block, output)] = ([output], []) := rfl
  simp only [Outcome.ofDocument, Outcome.ofStylesheet, hblocks, hissues, hnone, List.map_cons,
    List.map_nil, hresolve]
  refine ⟨rfl, _, rfl, ?_, rfl, ?_⟩
  · rw [Block.render, Block.path, if_pos hdocument]
  · rw [Block.render, htext]

end Passive

theorem isContent_of_map_eq {text css : String} {rules again : List Rule}
    (h : again.map (fun rule => (rule.text css, rule.comment?)) =
      rules.map fun rule => (rule.text text, rule.comment?))
    (hrules : ∀ rule ∈ rules, rule.isContent = true) :
    ∀ rule ∈ again, rule.isContent = true := by
  intro rule hrule
  have hmem := List.mem_map_of_mem (f := fun rule => (rule.text css, rule.comment?)) hrule
  rw [h] at hmem
  obtain ⟨old, hold, hsame⟩ := List.mem_map.mp hmem
  rw [← Rule.isContent_congr (congrArg Prod.snd hsame)]
  exact hrules old hold

/-- What a block is written to, where there is no map, is clean and has the rules of the
block. Splitting it again, as whichever file, gives one file that is the same, and no issue. -/
theorem resplit_ofDocument (document : Document) (options : Options)
    (hclean : (Stylesheet.ofText document.text).isClean = true)
    (hmark : '\ufeff' ∉ document.text.toList.tail)
    (hmap : (ofDocument document options).map = none) (id : Nat) (block : Block)
    (hblock : (ofDocument document options).blocks[id]? = some block) :
    let css := (block.render document.path options (ofDocument document options).map).css
    css = block.text ++ "\n" ∧
      (Stylesheet.ofText css).isClean = true ∧
      (Stylesheet.ofText css).rules.map (·.text css) =
        (Nesting.routedTo options.reopen (Stylesheet.ofText document.text).rules id).map
          (·.text document.text) ∧
      ∀ path settings,
        (Outcome.ofDocument { path, text := css } settings).issues = [] ∧
          (ofDocument { path, text := css } settings).blocks.length = 1 ∧
          ∃ output, (Outcome.ofDocument { path, text := css } settings).outputs = [output] ∧
            output.path = path ∧ output.css = css := by
  intro css
  have htext := text_of_block hclean hblock
  have hcss : css = block.text ++ "\n" := by
    change (block.render document.path options (ofDocument document options).map).css = _
    rw [hmap]
    rfl
  obtain ⟨hagain, hrules⟩ := Stylesheet.ofText_joined_newline hclean hmark
    (Nesting.routedTo_sublist options.reopen _ id) (hcss.trans (congrArg (· ++ "\n") htext))
  have htexts : (Stylesheet.ofText css).rules.map (·.text css) =
      (Nesting.routedTo options.reopen (Stylesheet.ofText document.text).rules id).map
        (·.text document.text) := by
    have hfirst := congrArg (List.map Prod.fst) hrules
    rwa [List.map_map, List.map_map] at hfirst
  have hcontent : ∀ rule ∈ (Stylesheet.ofText css).rules, rule.isContent = true :=
    isContent_of_map_eq hrules fun _ => Nesting.isContent_of_mem_routedTo
  refine ⟨hcss, hagain, htexts, ?_⟩
  intro path settings
  have hcleanAgain : (Stylesheet.ofText (Document.mk path css none).text).isClean = true := hagain
  have hpassive : ∀ rule ∈ (Stylesheet.ofText css).rules, rule.isPassive = true :=
    fun rule hrule => Rule.isPassive_of_isContent (hcontent rule hrule)
  have hjoined : String.join (((Stylesheet.ofText css).rules.filter Rule.isContent).map
      (·.text css)) ++ "\n" = css := by
    rw [List.filter_eq_self.mpr hcontent, htexts, ← htext, hcss]
  obtain ⟨single, hsingle, -, -⟩ := blocks_of_isPassive settings hcleanAgain hpassive
  obtain ⟨hissues, output, houtput, hpath, -, hwritten⟩ :=
    outcome_of_isPassive settings hcleanAgain rfl hpassive
  exact ⟨hissues, congrArg List.length hsingle, output, houtput, hpath, hwritten.trans hjoined⟩

theorem resplit_ofDocument_unended :
    let document : Document := {
      path := "main.css"
      text := ".a\x7b\x7d\n/*! start:x.css */\n.b\x7b\x7d\n/* c */\n@import \"d\" \n" }
    ∃ block, (Stylesheet.ofText document.text).isClean = true ∧
      '\ufeff' ∉ document.text.toList.tail ∧
      (ofDocument document {}).map = none ∧
      (ofDocument document {}).blocks[1]? = some block ∧
      block.text = ".b\x7b\x7d/* c */@import \"d\"" ∧
      (Stylesheet.ofText (block.text ++ "\n")).rules.map (·.text (block.text ++ "\n")) =
        [".b\x7b\x7d", "/* c */", "@import \"d\""] := by
  intro document
  have hclean : (Stylesheet.ofText document.text).isClean = true := by decide +kernel
  have hmark : '\ufeff' ∉ document.text.toList.tail := by decide
  have hmap : (ofDocument document {}).map = none := map_ofDocument hclean
  have htexts : ((ofDocument document {}).blocks[1]?.map (·.text)) =
      some ".b\x7b\x7d/* c */@import \"d\"" := by decide +kernel
  obtain ⟨block, hblock, htext⟩ := Option.map_eq_some_iff.mp htexts
  obtain ⟨hcss, -, hrules, -⟩ := resplit_ofDocument document {} hclean hmark hmap 1 block hblock
  refine ⟨block, hclean, hmark, hmap, hblock, htext, ?_⟩
  rw [← hcss, hrules]
  decide +kernel

end StyleSplit.Routing
