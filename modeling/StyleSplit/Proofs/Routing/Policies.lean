import StyleSplit.Proofs.Registry
import StyleSplit.Proofs.Routing.Merging

/-! A document split under both policies for starts that name an earlier block. -/

namespace StyleSplit

theorem join_map_flatMap {α β : Type} (text : β → String) (parts : α → List β)
    (all : List α) :
    String.join ((all.flatMap parts).map text) =
      String.join (all.map fun each => String.join ((parts each).map text)) := by
  induction all with
  | nil => rfl
  | cons each all ih =>
      rw [List.flatMap_cons, List.map_append, String.join_append, ih, List.map_cons,
        String.join_cons]

namespace Routing

variable {document : Document} {options : Options}

theorem State.sound_step {state : State} {documentName : String}
    (h : state.registry.Sound documentName) (text : String) (map : Option SourceMap)
    (index : LineIndex) (rule : Rule) :
    (state.step text map index rule).registry.Sound documentName := by
  unfold State.step
  split
  · exact h.openBlock _ _
  · split
    · rename_i hclosed
      exact h.closeBlock hclosed
    · exact h
  · exact h
  · exact h.appendActive _ _
  · exact h.appendActive _ _

theorem sound_stateAfter (document : Document) (options : Options) (rules : List Rule) :
    (stateAfter document options rules).registry.Sound (Path.fileName document.path) := by
  induction rules using List.reverseRecOn with
  | nil => exact Registry.sound_new (Path.fileName document.path) options.reopen
  | append_singleton rules rule ih =>
      rw [stateAfter, List.foldl_concat]
      exact State.sound_step ih _ _ _ rule

theorem document_block (options : Options)
    (hclean : (Stylesheet.ofText document.text).isClean = true) :
    (ofDocument document options).blocks[0]? = some
      ((Block.document (Path.fileName document.path)).appendRules document.text
        (originsOf (usableMap document options).1 (.ofText document.text))
        (Nesting.routedTo options.reopen (Stylesheet.ofText document.text).rules 0)) := by
  have hmade := (sound_stateAfter document options (Stylesheet.ofText document.text).rules).document
  obtain ⟨block, hblock, hblank⟩ := Option.map_eq_some_iff.mp (Array.getElem?_map.symm.trans hmade)
  rw [← Array.getElem?_toList, ← (ofDocument_eq_stateAfter options hclean).1] at hblock
  rw [hblock, ← hblank, ← block_eq_appendRules hclean hblock]

theorem named_blocks (options : Options)
    (hclean : (Stylesheet.ofText document.text).isClean = true) :
    (ofDocument document options).blocks.tail.map
        (fun block => (block.isDocument, block.identity, block.text)) =
      ((Nesting.created options.reopen (Stylesheet.ofText document.text).rules).zipIdx 1).map
        fun entry => (false, entry.1, String.join
          ((Nesting.routedTo options.reopen (Stylesheet.ofText document.text).rules entry.2).map
            (·.text document.text))) := by
  obtain ⟨registry, hblocks, hfollows, -, -⟩ := exists_registry options hclean
  have hlabels := hfollows.labels
  rw [← hblocks, Nesting.names_run] at hlabels
  apply List.ext_getElem?
  intro index
  have hlabel := congrArg (·[index + 1]?) hlabels
  rw [List.getElem?_cons_succ, List.getElem?_map, List.getElem?_map] at hlabel
  rw [List.getElem?_map, List.getElem?_map, List.getElem?_zipIdx, List.getElem?_tail]
  cases hblock : (ofDocument document options).blocks[index + 1]? with
  | none =>
      rw [hblock] at hlabel
      rw [Option.map_eq_none_iff.mp hlabel.symm]
      rfl
  | some block =>
      rw [hblock] at hlabel
      obtain ⟨name, hname, heq⟩ := Option.map_eq_some_iff.mp hlabel.symm
      obtain ⟨rfl, hnamed⟩ := Prod.mk.inj heq
      rw [hname, Option.map_some, Option.map_some, Option.map_some, text_of_block hclean hblock,
        ← hnamed, Nat.add_comm 1 index]

theorem blocks_eq (options : Options)
    (hclean : (Stylesheet.ofText document.text).isClean = true) :
    (ofDocument document options).blocks =
      (Block.document (Path.fileName document.path)).appendRules document.text
          (originsOf (usableMap document options).1 (.ofText document.text))
          (Nesting.routedTo options.reopen (Stylesheet.ofText document.text).rules 0) ::
        (ofDocument document options).blocks.tail := by
  have hfirst := document_block options hclean
  rw [← List.head?_eq_getElem?] at hfirst
  exact (List.cons_head?_tail hfirst).symm

theorem isDocument_of_mem_tail (options : Options)
    (hclean : (Stylesheet.ofText document.text).isClean = true) {block : Block}
    (hblock : block ∈ (ofDocument document options).blocks.tail) :
    block.isDocument = false := by
  have hlabel := List.mem_map_of_mem
    (f := fun block : Block => (block.isDocument, block.identity, block.text)) hblock
  rw [named_blocks options hclean] at hlabel
  obtain ⟨entry, -, heq⟩ := List.mem_map.mp hlabel
  exact (Prod.mk.inj heq).1.symm

theorem identity_tail (options : Options)
    (hclean : (Stylesheet.ofText document.text).isClean = true) :
    (ofDocument document options).blocks.tail.map (·.identity) =
      Nesting.created options.reopen (Stylesheet.ofText document.text).rules := by
  have hnames := congrArg (List.map (·.2.1)) (named_blocks options hclean)
  rw [List.map_map, List.map_map] at hnames
  exact hnames.trans (List.zipIdx_map_fst 1 _)

theorem exists_block_of_created (options : Options)
    (hclean : (Stylesheet.ofText document.text).isClean = true) {index : Nat} {name : String}
    (hname : (Nesting.created options.reopen (Stylesheet.ofText document.text).rules)[index]? =
      some name) :
    ∃ block, (ofDocument document options).blocks[index + 1]? = some block ∧
      block.identity = name ∧ block.isDocument = false := by
  rw [← identity_tail options hclean, List.getElem?_map, List.getElem?_tail] at hname
  obtain ⟨block, hblock, hidentity⟩ := Option.map_eq_some_iff.mp hname
  refine ⟨block, hblock, hidentity, isDocument_of_mem_tail options hclean ?_⟩
  rw [← List.getElem?_tail] at hblock
  exact List.mem_of_getElem? hblock

theorem label_document_block (name text : String)
    (origins : Rule → List (Nat × SourcePosition)) (rules : List Rule) :
    ((Block.document name).appendRules text origins rules).identity = name ∧
      ((Block.document name).appendRules text origins rules).isDocument = true := by
  have hblank := Block.blank_appendRules (.document name) text origins rules
  exact ⟨congrArg Block.identity hblank, congrArg Block.isDocument hblank⟩

theorem texts_of_isNamed (options : Options)
    (hclean : (Stylesheet.ofText document.text).isClean = true) (name : String) :
    ((ofDocument document options).blocks.filter (·.IsNamed name)).map (·.text) =
      (Nesting.idsOf
          (Nesting.created options.reopen (Stylesheet.ofText document.text).rules) name).map
        fun id => String.join
          ((Nesting.routedTo options.reopen (Stylesheet.ofText document.text).rules id).map
            (·.text document.text)) := by
  have hnamed := congrArg (fun labels =>
      (labels.filter fun label => label.1 = false ∧ label.2.1 = name).map (·.2.2))
    (named_blocks options hclean)
  rw [List.filter_map, List.filter_map, List.map_map, List.map_map] at hnamed
  rw [blocks_eq options hclean, List.filter_cons_of_neg, Nesting.idsOf, List.map_map]
  · refine hnamed.trans (congrArg (List.map _) (List.filter_congr fun entry _ => ?_))
    simp [beq_eq_decide]
  · simp [Block.IsNamed, (label_document_block ..).2]

theorem same_block_of_mem_route (options : Options)
    (hclean : (Stylesheet.ofText document.text).isClean = true) {entry : Nat × Rule}
    (hentry : entry ∈ Nesting.route .separate {} (Stylesheet.ofText document.text).rules) :
    let starts := (Stylesheet.ofText document.text).rules.filterMap Rule.openingName?
    ∃ first second,
      (ofDocument document { options with reopen := .append }).blocks[
        Nesting.merged starts entry.1]? = some first ∧
      (ofDocument document { options with reopen := .separate }).blocks[entry.1]? =
        some second ∧
      first.identity = second.identity ∧ first.isDocument = second.isDocument := by
  intro starts
  rcases Nesting.of_mem_route hentry with hzero | ⟨index, name, hid, hname⟩
  · rw [hzero, Nesting.merged_zero]
    refine ⟨_, _, document_block _ hclean, document_block _ hclean, ?_, ?_⟩
    · rw [(label_document_block ..).1, (label_document_block ..).1]
    · rw [(label_document_block ..).2, (label_document_block ..).2]
  · have hmem := List.mem_eraseDups.mpr (List.mem_of_getElem? hname)
    obtain ⟨first, hfirst, hfirstName, hfirstNamed⟩ := exists_block_of_created
      { options with reopen := .append } hclean (List.getElem?_idxOf hmem)
    obtain ⟨second, hsecond, hsecondName, hsecondNamed⟩ := exists_block_of_created
      { options with reopen := .separate } hclean hname
    rw [hid, Nesting.merged_of_getElem? hname]
    exact ⟨first, second, hfirst, hsecond, hfirstName.trans hsecondName.symm,
      hfirstNamed.trans hsecondNamed.symm⟩

/-- Where no block is started inside one of its name, a block that is gone on with has the
texts of the separate blocks of its name. -/
theorem text_eq_join (options : Options)
    (hclean : (Stylesheet.ofText document.text).isClean = true)
    (hapart : Delimiter.apart []
      ((Stylesheet.ofText document.text).rules.filterMap Rule.delimiter?) = true)
    {block : Block}
    (hblock : block ∈ (ofDocument document { options with reopen := .append }).blocks)
    (hnamed : block.isDocument = false) :
    block.text = String.join
      (((ofDocument document { options with reopen := .separate }).blocks.filter
        (·.IsNamed block.identity)).map (·.text)) := by
  obtain ⟨index, hindex⟩ := List.mem_iff_getElem?.mp hblock
  cases index with
  | zero =>
      rw [document_block _ hclean] at hindex
      cases hindex
      rw [(label_document_block ..).2] at hnamed
      cases hnamed
  | succ index =>
      have hnames := congrArg (·[index]?)
        (identity_tail { options with reopen := .append } hclean)
      rw [List.getElem?_map, List.getElem?_tail, hindex] at hnames
      rw [text_of_block hclean hindex, texts_of_isNamed _ hclean,
        Nesting.routedTo_append hapart hnames.symm, join_map_flatMap]
      rfl

/-- The two policies for starts that name an earlier block give the same issues and the
same block of the document, and send each rule to blocks of the same name. Separate blocks
are one for each start. Where no block is started inside one of its name, a block that is
gone on with has the texts of the separate ones, one after the other. -/
theorem policies_ofDocument (document : Document) (options : Options)
    (hclean : (Stylesheet.ofText document.text).isClean = true) :
    let rules := (Stylesheet.ofText document.text).rules
    let starts := rules.filterMap Rule.openingName?
    let split policy := ofDocument document { options with reopen := policy }
    let appended := split .append
    let separated := split .separate
    appended.issues = separated.issues ∧
      appended.map = separated.map ∧
      (∃ main first second, appended.blocks = main :: first ∧
        separated.blocks = main :: second ∧ main.isDocument = true ∧
        (∀ block ∈ first ++ second, block.isDocument = false) ∧
        first.map (·.identity) = starts.eraseDups ∧ second.map (·.identity) = starts) ∧
      (∀ policy, (Nesting.route policy {} rules).map (·.2) = rules.filter Rule.isContent ∧
        ∀ id block, (split policy).blocks[id]? = some block →
          block.text = String.join
            ((Nesting.routedTo policy rules id).map (·.text document.text))) ∧
      List.Forall₂ (fun first second => first.2 = second.2 ∧
          ∃ block other, appended.blocks[first.1]? = some block ∧
            separated.blocks[second.1]? = some other ∧
            block.identity = other.identity ∧ block.isDocument = other.isDocument)
        (Nesting.route .append {} rules) (Nesting.route .separate {} rules) ∧
      (Delimiter.apart [] (rules.filterMap Rule.delimiter?) = true →
        ∀ block ∈ appended.blocks, block.isDocument = false →
          block.text = String.join
            ((separated.blocks.filter (·.IsNamed block.identity)).map (·.text))) := by
  intro rules starts split appended separated
  have hmain : Nesting.routedTo .append rules 0 = Nesting.routedTo .separate rules 0 :=
    Nesting.routedTo_append_zero rules
  refine ⟨?_, ?_, ?_, ?_, ?_, ?_⟩
  · change (split _).issues = (split _).issues
    rw [issues_ofDocument _ hclean, issues_ofDocument _ hclean]
    rfl
  · change (split _).map = (split _).map
    rw [map_ofDocument hclean, map_ofDocument hclean]
    rfl
  · have happended := blocks_eq { options with reopen := .append } hclean
    rw [hmain] at happended
    refine ⟨_, _, _, happended, blocks_eq _ hclean, (label_document_block ..).2, ?_,
      identity_tail _ hclean, identity_tail _ hclean⟩
    intro block hblock
    rcases List.mem_append.mp hblock with hfirst | hsecond
    · exact isDocument_of_mem_tail _ hclean hfirst
    · exact isDocument_of_mem_tail _ hclean hsecond
  · intro policy
    exact ⟨Nesting.map_snd_route policy {} rules, fun id block hblock =>
      text_of_block hclean hblock⟩
  · rw [Nesting.route_append, List.forall₂_map_left_iff, List.forall₂_same]
    intro entry hentry
    exact ⟨rfl, same_block_of_mem_route options hclean hentry⟩
  · intro hapart block hblock hnamed
    exact text_eq_join options hclean hapart hblock hnamed

theorem policies_ofDocument_reopened :
    let document : Document := {
      path := "css/main.css"
      text := "/*! start:a.css */.a\x7b\x7d/*! start:b.css */.b\x7b\x7d/*! end:b.css */" ++
        ".c\x7b\x7d/*! end:a.css */.d\x7b\x7d/*! end:a.css *//*! start:a.css */.e\x7b\x7d" }
    let delimiters := (Stylesheet.ofText document.text).rules.filterMap Rule.delimiter?
    let appended := ofDocument document { reopen := .append }
    let separated := ofDocument document { reopen := .separate }
    (Stylesheet.ofText document.text).isClean = true ∧
      Delimiter.apart [] delimiters = true ∧
      appended.issues = separated.issues ∧ separated.issues.length = 2 ∧
      separated.blocks.map (fun block => (block.identity, block.text)) = [
        ("main.css", ".d\x7b\x7d"), ("a.css", ".a\x7b\x7d.c\x7b\x7d"),
        ("b.css", ".b\x7b\x7d"), ("a.css", ".e\x7b\x7d")] ∧
      (∀ block ∈ appended.blocks, block.isDocument = false →
        block.text = String.join
          ((separated.blocks.filter (·.IsNamed block.identity)).map (·.text))) := by
  intro document delimiters appended separated
  have hclean : (Stylesheet.ofText document.text).isClean = true := by decide +kernel
  have hapart : Delimiter.apart [] delimiters = true := by decide +kernel
  obtain ⟨hissues, -, -, -, -, htexts⟩ := policies_ofDocument document {} hclean
  exact ⟨hclean, hapart, hissues, by decide +kernel, by decide +kernel, htexts hapart⟩

-- Inside a block of its own name, a start takes the rules out of their order.
example :
    let document : Document := {
      path := "main.css"
      text := "/*! start:a.css */.a\x7b\x7d/*! start:a.css */.b\x7b\x7d/*! end:a.css */" ++
        ".c\x7b\x7d/*! end:a.css */" }
    (ofDocument document { reopen := .append }).blocks.map (·.text) =
        ["", ".a\x7b\x7d.b\x7b\x7d.c\x7b\x7d"] ∧
      (ofDocument document { reopen := .separate }).blocks.map (·.text) =
        ["", ".a\x7b\x7d.c\x7b\x7d", ".b\x7b\x7d"] := by
  decide +kernel

end Routing

end StyleSplit
