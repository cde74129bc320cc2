import StyleSplit.Proofs.Block.Copies
import StyleSplit.Proofs.Routing.Blocks

/-! The copies that the blocks of a clean document are made of, and the mappings
of these blocks. -/

namespace StyleSplit.Routing

variable {document : Document} {options : Options} {id : Nat} {block : Block}
  {map : SourceMap} {copy : Copy}

/-- The copies in the block of that number, in order. -/
def copies (document : Document) (options : Options) (id : Nat) : List Copy :=
  Copy.ofRules document.text 0
    (Nesting.routedTo options.reopen (Stylesheet.ofText document.text).rules id)

theorem stands_of_mem_routedTo {rule : Rule}
    (hrule : rule ∈ Nesting.routedTo options.reopen
      (Stylesheet.ofText document.text).rules id) : rule.Stands document.text :=
  Stylesheet.stands_of_mem ((Nesting.routedTo_sublist ..).subset hrule)

theorem pairwise_offset_copies (document : Document) (options : Options) (id : Nat) :
    (copies document options id).Pairwise fun first second =>
      first.offset < second.offset :=
  Copy.pairwise_offset 0 fun _ hrule => stands_of_mem_routedTo hrule

theorem stands_of_mem_copies (hclean : (Stylesheet.ofText document.text).isClean = true)
    (hblock : (ofDocument document options).blocks[id]? = some block)
    (hcopy : copy ∈ copies document options id) :
    copy.Stands document.text block.text := by
  have htext : block.text.toList = [] ++ ((String.join
      ((Nesting.routedTo options.reopen (Stylesheet.ofText document.text).rules id).map
        (·.text document.text))).toList ++ []) := by
    rw [text_of_block hclean hblock, List.nil_append, List.append_nil]
  exact Copy.stands_of_mem_ofRules (fun rule hrule => stands_of_mem_routedTo hrule) htext hcopy

theorem mappings_of_block (hclean : (Stylesheet.ofText document.text).isClean = true)
    (hmap : (usableMap document options).1 = some map)
    (hblock : (ofDocument document options).blocks[id]? = some block) :
    block.mappings.toList =
      (copies document options id).filterMap
        (Copy.mapping? map document.text block.text) := by
  have hrules : ∀ rule ∈ Nesting.routedTo options.reopen
      (Stylesheet.ofText document.text).rules id, rule.Stands document.text :=
    fun rule hrule => stands_of_mem_routedTo hrule
  have hmappings := Block.mappings_appendRules map block.atEnd_blank hrules ""
  have horigins : originsOf (usableMap document options).1 (.ofText document.text) =
      origins map (.ofText document.text) := by
    rw [hmap]
    rfl
  have heq := block_eq_appendRules hclean hblock
  rw [horigins] at heq
  rw [← heq, ← text_of_block hclean hblock] at hmappings
  rw [hmappings]
  have hempty : block.blank.text ++ block.text ++ "" = block.text := by
    rw [String.append_empty]
    exact String.empty_append
  rw [hempty]
  exact List.nil_append _

/-- The mappings of a block are those of the parts it holds that have an origin.
Each part is found in the block where its mapping says, whatever is written
after it. -/
theorem mappings_ofDocument (document : Document) (options : Options) (map : SourceMap)
    (hclean : (Stylesheet.ofText document.text).isClean = true)
    (hmap : (usableMap document options).1 = some map) (id : Nat) (block : Block)
    (hblock : (ofDocument document options).blocks[id]? = some block) :
    block.mappings.toList =
        (copies document options id).filterMap
          (Copy.mapping? map document.text block.text) ∧
      ∀ copy ∈ copies document options id, ∃ piece generated,
        copy.part.span.text? document.text = some piece ∧
          Text.between? block.text copy.offset (copy.offset + piece.utf8ByteSize) =
            some piece ∧
          ∀ later, Position.ofOffset? (block.text ++ later) copy.offset =
            some generated := by
  refine ⟨mappings_of_block hclean hmap hblock, ?_⟩
  intro copy hcopy
  have hstands := stands_of_mem_copies hclean hblock hcopy
  obtain ⟨piece, hsource, hpiece⟩ := hstands.exists_piece
  obtain ⟨generated, hgenerated⟩ := hstands.exists_ofOffset?
  refine ⟨piece, generated, hsource, hpiece, ?_⟩
  intro later
  rw [hstands.ofOffset?_append later, hgenerated]

theorem mappings_ofDocument_media :
    let document : Document := {
      path := "main.css"
      text := "/*! start:x.css */\n@media print \x7b\n  .a\x7b\x7d\n  .b\x7b\x7d\n\x7d\n/*! end:x.css */\n"
      map := some (SourceMap.ofWire
        { version := 3, sources := [some "a.scss"], mappings := ";AAAA;EACE;EACA" }) }
    ∃ map block, (Stylesheet.ofText document.text).isClean = true ∧
      (usableMap document {}).1 = some map ∧
      (ofDocument document {}).blocks[1]? = some block ∧
      block.mappings.toList =
        (copies document {} 1).filterMap (Copy.mapping? map document.text block.text) ∧
      block.mappings.toList =
        [⟨⟨1, 0⟩, ⟨"a.scss", ⟨1, 0⟩⟩⟩, ⟨⟨2, 2⟩, ⟨"a.scss", ⟨2, 2⟩⟩⟩,
          ⟨⟨3, 2⟩, ⟨"a.scss", ⟨3, 2⟩⟩⟩] := by
  intro document
  have hclean : (Stylesheet.ofText document.text).isClean = true := by decide +kernel
  have hmapped : ((usableMap document {}).1.bind fun _ =>
      (ofDocument document {}).blocks[1]?.map (·.mappings.toList)) =
        some [⟨⟨1, 0⟩, ⟨"a.scss", ⟨1, 0⟩⟩⟩, ⟨⟨2, 2⟩, ⟨"a.scss", ⟨2, 2⟩⟩⟩,
          ⟨⟨3, 2⟩, ⟨"a.scss", ⟨3, 2⟩⟩⟩] := by decide +kernel
  obtain ⟨map, hmap, hmapped⟩ := Option.bind_eq_some_iff.mp hmapped
  obtain ⟨block, hblock, hmappings⟩ := Option.map_eq_some_iff.mp hmapped
  exact ⟨map, block, hclean, hmap, hblock,
    (mappings_ofDocument document {} map hclean hmap 1 block hblock).1, hmappings⟩

end StyleSplit.Routing
