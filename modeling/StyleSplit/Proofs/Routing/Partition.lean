import StyleSplit.Proofs.Routing.Blocks
import StyleSplit.Proofs.Stylesheet.Parts

/-! Splitting a clean document loses no rule and doubles none. -/

namespace StyleSplit.Routing

/-- Each rule that is content goes, as it is written, to the block that the stack
machine finds open at it. A block's text is that of its rules in order, and the
blocks are listed as they were made. -/
theorem partition_ofDocument (document : Document) (options : Options)
    (hclean : (Stylesheet.ofText document.text).isClean = true) :
    let rules := (Stylesheet.ofText document.text).rules
    let routed := Nesting.route options.reopen {} rules
    let blocks := (ofDocument document options).blocks
    routed.map (·.2) = rules.filter Rule.isContent ∧
      (∀ entry ∈ routed, entry.1 < blocks.length ∧
        entry.2.span.text? document.text = some (entry.2.text document.text)) ∧
      (∀ id block, blocks[id]? = some block →
        block.text = String.join
          ((Nesting.routedTo options.reopen rules id).map (·.text document.text))) ∧
      blocks.map (fun block => (block.identity, block.isDocument)) =
        (Path.fileName document.path, true) ::
          (Nesting.created options.reopen rules).map (·, false) := by
  intro rules routed blocks
  obtain ⟨registry, hblocks, hfollows, -, hrouted⟩ := exists_registry options hclean
  have hrules : routed.map (·.2) = rules.filter Rule.isContent :=
    Nesting.map_snd_route options.reopen {} rules
  refine ⟨hrules, ?_, ?_, ?_⟩
  · intro entry hentry
    refine ⟨?_, ?_⟩
    · change _ < (ofDocument document options).blocks.length
      rw [hblocks, Array.length_toList]
      exact hrouted entry hentry
    · have hrule : entry.2 ∈ rules.filter Rule.isContent := by
        rw [← hrules]
        exact List.mem_map_of_mem hentry
      exact (Stylesheet.stands_of_mem (List.mem_filter.mp hrule).1).text?_eq
  · intro id block hblock
    exact text_of_block hclean hblock
  · change (ofDocument document options).blocks.map _ = _
    rw [hblocks, hfollows.labels, Nesting.names_run]

theorem partition_ofDocument_nested :
    let document : Document := {
      path := "css/main.css"
      text := ".a\x7b\x7d\n/*! start:x.css */\n.b\x7b\x7d\n/*! start:x.css */\n.c\x7b\x7d\n" ++
        "/*! end:y.css */\n.d\x7b\x7d\n/*! end:x.css */\n/*! start:y.css */\n.e\x7b\x7d\n" }
    let rules := (Stylesheet.ofText document.text).rules
    (Stylesheet.ofText document.text).isClean = true ∧
      (Nesting.route .append {} rules).map (·.2) = rules.filter Rule.isContent ∧
      (ofDocument document {}).blocks.map (·.text) =
        [".a\x7b\x7d", ".b\x7b\x7d.c\x7b\x7d.d\x7b\x7d", ".e\x7b\x7d"] := by
  intro document rules
  have hclean : (Stylesheet.ofText document.text).isClean = true := by decide +kernel
  exact ⟨hclean, (partition_ofDocument document {} hclean).1, by decide +kernel⟩

end StyleSplit.Routing
