import StyleSplit.Proofs.Routing.Resplit
import StyleSplit.Proofs.Template

/-! The comment that names the map of a block, and what becomes of it when the block is
split again. -/

namespace StyleSplit

open CommentClass (IsName NamesMap pragmaBody ofBody ofBody_pragmaBody)

theorem Path.fileName_sibling (path name : String) :
    fileName (sibling path name) = fileName name := by
  rw [sibling]
  split
  · rw [fileName, fileName, String.toList_ofList, Text.afterLast_append_separator]
  · rfl

theorem Options.hash_length_ne_zero {options : Options} (h : options.fault? = none) :
    options.hash.length ≠ 0 := by
  unfold fault? at h
  dsimp only at h
  split_ifs at h
  assumption

namespace Block

def fileName (block : Block) (documentPath : String) (options : Options) : List Char :=
  (Path.fileName (block.path documentPath options)).toList

variable {block : Block} {documentPath : String} {options : Options}

theorem fileName_of_isDocument (h : block.isDocument = true) :
    block.fileName documentPath options = (Path.fileName documentPath).toList := by
  rw [fileName, path, if_pos h]

theorem isName_fileName (hoptions : options.fault? = none) (h : block.isDocument = false)
    (hname : IsName block.outputName.toList) (hplain : options.filename.IsPlain) :
    IsName (block.fileName documentPath options) := by
  rw [fileName, path, if_neg (by rw [h]; decide), Path.fileName_sibling, Path.fileName,
    String.toList_ofList]
  exact hplain.isName_apply hname block.text (Options.hash_length_ne_zero hoptions)

theorem slash_not_mem_fileName : '/' ∉ block.fileName documentPath options := by
  rw [fileName, Path.fileName, String.toList_ofList]
  exact Text.not_mem_afterLast '/' _

theorem toList_pragma (path : String) :
    (pragma path).toList =
      (Lexeme.comment (pragmaBody (Path.fileName path).toList)).text ++ ['\n'] := by
  have hopening : "/*# sourceMappingURL=".toList =
      '/' :: '*' :: "# sourceMappingURL=".toList := by decide
  have hending : ".map*/\n".toList = ".map".toList ++ ['*', '/', '\n'] := by decide
  have hparts : (pragma path).toList =
      "/*# sourceMappingURL=".toList ++ (Path.fileName path).toList ++ ".map*/\n".toList :=
    String.toList_append.trans (congrArg (· ++ ".map*/\n".toList) String.toList_append)
  have hshape (first file last : List Char) :
      '/' :: '*' :: first ++ file ++ (last ++ ['*', '/', '\n']) =
        (Lexeme.comment (first ++ (file ++ last))).text ++ ['\n'] := by
    simp [Lexeme.text]
  exact hparts.trans ((congrArg₂ (fun first last => first ++ (Path.fileName path).toList ++ last)
    hopening hending).trans (hshape _ _ _))

theorem css_render (map : SourceMap) :
    (block.render documentPath options (some map)).css = block.text ++
      .ofList ('\n' :: ((Lexeme.comment
        (pragmaBody (block.fileName documentPath options))).text ++ ['\n'])) := by
  have hline : "\n" ++ pragma (block.path documentPath options) =
      .ofList ('\n' :: ((Lexeme.comment
        (pragmaBody (block.fileName documentPath options))).text ++ ['\n'])) := by
    apply String.toList_inj.mp
    rw [String.toList_ofList]
    exact String.toList_append.trans (congrArg ('\n' :: ·) (toList_pragma _))
  rw [← hline]
  exact String.append_assoc

end Block

namespace Routing

variable {document : Document} {options : Options} {id : Nat} {block : Block}

/-- The last rule of the block is no at-rule that would take in what follows it. -/
def Sealed (document : Document) (options : Options) (id : Nat) : Prop :=
  ∀ rule, (Nesting.routedTo options.reopen (Stylesheet.ofText document.text).rules id).getLast? =
    some rule → ¬ Stylesheet.OpenEnded (rule.text document.text).toList

theorem rules_css_render (map : SourceMap)
    (hclean : (Stylesheet.ofText document.text).isClean = true)
    (hmark : '\ufeff' ∉ document.text.toList.tail)
    (hblock : (ofDocument document options).blocks[id]? = some block)
    (hsealed : Sealed document options id) :
    let body := pragmaBody (block.fileName document.path options)
    let css := (block.render document.path options (some map)).css
    (Stylesheet.ofText css).isClean = true ∧
      (Stylesheet.ofText css).rules.map (fun rule => (rule.text css, rule.comment?)) =
        (Nesting.routedTo options.reopen (Stylesheet.ofText document.text).rules id).map
          (fun rule => (rule.text document.text, rule.comment?)) ++
        [(.ofList (Lexeme.comment body).text, some (.ofList body))] := by
  intro body css
  have htext := text_of_block hclean hblock
  refine Stylesheet.ofText_joined_comment hclean hmark
    (Nesting.routedTo_sublist options.reopen _ id)
    (CommentClass.slash_not_mem_pragmaBody Block.slash_not_mem_fileName) hsealed ?_
  rw [← htext]
  exact Block.css_render map

theorem isPassive_of_pragmaBody {file : List Char} {rule : Rule}
    (h : rule.comment? = some (.ofList (pragmaBody file))) :
    rule.isPassive = true ∧ (NamesMap file → rule.isContent = false) ∧
      (¬ NamesMap file → rule.isContent = true) := by
  have hclass : rule.commentClass? = some (ofBody (.ofList (pragmaBody file))) := by
    rw [Rule.commentClass?, h]
    rfl
  obtain ⟨hstale, hcontent⟩ := ofBody_pragmaBody file
  rw [Rule.isPassive, Rule.isContent, hclass]
  by_cases hnames : NamesMap file
  · rw [hstale hnames]
    exact ⟨rfl, fun _ => rfl, absurd hnames⟩
  · rw [hcontent hnames]
    exact ⟨rfl, fun hnamed => absurd hnamed hnames, fun _ => rfl⟩

/-- Splitting such a stylesheet again gives the text of the block, without the comment that
names its map if that is a pragma, and with it if not. -/
theorem text_resplit (map : SourceMap)
    (hclean : (Stylesheet.ofText document.text).isClean = true)
    (hmark : '\ufeff' ∉ document.text.toList.tail)
    (hblock : (ofDocument document options).blocks[id]? = some block)
    (hsealed : Sealed document options id) (path : String)
    (again : Option (Except MapError SourceMap)) (settings : Options) :
    let file := block.fileName document.path options
    let css := (block.render document.path options (some map)).css
    ∃ single, (ofDocument { path, text := css, map := again } settings).blocks = [single] ∧
      single.isDocument = true ∧ (NamesMap file → single.text = block.text) ∧
      (¬ NamesMap file →
        single.text = block.text ++ .ofList (Lexeme.comment (pragmaBody file)).text) := by
  intro file css
  obtain ⟨hagain, hrules⟩ := rules_css_render map hclean hmark hblock hsealed
  obtain ⟨first, last, hsplit, hfirst, hlast⟩ := List.map_eq_append_iff.mp hrules
  obtain ⟨pragma, rfl, hpragma⟩ := List.map_eq_singleton_iff.mp hlast
  have hcontent := isContent_of_map_eq hfirst fun _ => Nesting.isContent_of_mem_routedTo
  obtain ⟨hpassive, hstale, hkept⟩ := isPassive_of_pragmaBody (congrArg Prod.snd hpragma)
  have hall : ∀ rule ∈ (Stylesheet.ofText css).rules, rule.isPassive = true := by
    intro rule hrule
    rw [hsplit] at hrule
    rcases List.mem_append.mp hrule with hmem | hmem
    · exact Rule.isPassive_of_isContent (hcontent rule hmem)
    · cases List.mem_singleton.mp hmem
      exact hpassive
  obtain ⟨single, hsingle, hdocument, htext⟩ :=
    @blocks_of_isPassive { path, text := css, map := again } settings hagain hall
  have htexts : String.join (first.map (·.text css)) = block.text := by
    have hfst := congrArg (List.map Prod.fst) hfirst
    rw [List.map_map, List.map_map] at hfst
    rw [text_of_block hclean hblock]
    exact congrArg String.join hfst
  change single.text = String.join (((Stylesheet.ofText css).rules.filter Rule.isContent).map
    (·.text css)) at htext
  rw [hsplit, List.filter_append, List.filter_eq_self.mpr hcontent, List.map_append] at htext
  refine ⟨single, hsingle, hdocument, fun hnames => ?_, fun hnames => ?_⟩
  · rw [htext, List.filter_cons_of_neg (by rw [hstale hnames]; decide)]
    simpa using htexts
  · have hcomment : pragma.text css = _ := congrArg Prod.fst hpragma
    rw [htext, List.filter_cons_of_pos (hkept hnames), List.filter_nil, List.map_singleton,
      hcomment, ← htexts]
    apply String.toList_inj.mp
    simp [String.toList_join, file]

/-- The comment that names the map of a block is a pragma when the file name is a name, or
begins with the map of one, and is content otherwise. It is a pragma for a document whose
file name is a name, and for all named blocks under a plain template. Where it is one,
splitting the stylesheet again drops it, and otherwise keeps it. -/
theorem pragma_of_block (document : Document) (options : Options)
    (hoptions : options.fault? = none) (block : Block) (map : SourceMap)
    (hname : block.isDocument = true ∨ ∃ comment, ofBody comment = .opening block.outputName) :
    let file := block.fileName document.path options
    let body := pragmaBody file
    let css := (block.render document.path options (some map)).css
    css = block.text ++ .ofList ('\n' :: ((Lexeme.comment body).text ++ ['\n'])) ∧
      (NamesMap file → ofBody (.ofList body) = .stalePragma) ∧
      (¬ NamesMap file → ofBody (.ofList body) = .content) ∧
      (block.isDocument = true → IsName (Path.fileName document.path).toList →
        NamesMap file) ∧
      (block.isDocument = false → options.filename.IsPlain → NamesMap file) ∧
      ∀ id, (Stylesheet.ofText document.text).isClean = true →
        '\ufeff' ∉ document.text.toList.tail →
        (ofDocument document options).blocks[id]? = some block →
        Sealed document options id →
        ∀ path again settings, ∃ single,
          (ofDocument { path, text := css, map := again } settings).blocks = [single] ∧
            single.isDocument = true ∧ (NamesMap file → single.text = block.text) ∧
            (¬ NamesMap file →
              single.text = block.text ++ .ofList (Lexeme.comment body).text) := by
  intro file body css
  obtain ⟨hstale, hcontent⟩ := ofBody_pragmaBody file
  refine ⟨Block.css_render map, hstale, hcontent, ?_, ?_, ?_⟩
  · intro hdocument hfile
    rw [← Block.fileName_of_isDocument hdocument] at hfile
    exact ⟨_, hfile, .inl rfl⟩
  · intro hnamed hplain
    have houtput : IsName block.outputName.toList := by
      rcases hname with hdocument | hopening
      · rw [hnamed] at hdocument
        cases hdocument
      · exact CommentClass.isName_iff_opening.mpr hopening
    exact ⟨_, Block.isName_fileName hoptions hnamed houtput hplain, .inl rfl⟩
  · intro id hclean hmark hblock hsealed path again settings
    exact text_resplit map hclean hmark hblock hsealed path again settings

theorem pragma_of_block_named :
    let document : Document := {
      path := "css/main.min.css"
      text := ".a\x7b\x7d\n/*! start:x.css */\n@media print \x7b\x7d\n.b\x7b\x7d" }
    let map : SourceMap := ⟨none, #["a.scss"], [], #[#[⟨0, some ⟨0, 1, 0⟩⟩]]⟩
    ({} : Options).fault? = none ∧ ∃ block single,
      (ofDocument document {}).blocks[1]? = some block ∧
      (∃ comment, ofBody comment = .opening block.outputName) ∧
      (block.render document.path {} (some map)).css =
        "@media print \x7b\x7d.b\x7b\x7d\n/*# sourceMappingURL=x.css.map*/\n" ∧
      (ofDocument { document with
        text := (block.render document.path {} (some map)).css } {}).blocks = [single] ∧
      single.text = "@media print \x7b\x7d.b\x7b\x7d" := by
  intro document map
  have hclean : (Stylesheet.ofText document.text).isClean = true := by decide +kernel
  have hmark : '\ufeff' ∉ document.text.toList.tail := by decide
  have hoptions : ({} : Options).fault? = none := by decide
  have hopening : ofBody "! start:x.css " = .opening "x.css" := by decide
  have hparts : (ofDocument document {}).blocks[1]?.map (fun block =>
      (block.outputName, block.isDocument, block.text,
        (block.render document.path {} (some map)).css)) =
      some ("x.css", false, "@media print \x7b\x7d.b\x7b\x7d",
        "@media print \x7b\x7d.b\x7b\x7d\n/*# sourceMappingURL=x.css.map*/\n") := by
    decide +kernel
  have hsealed : Sealed document {} 1 := by
    have hlast : ((Nesting.routedTo ({} : Options).reopen
        (Stylesheet.ofText document.text).rules 1).getLast?.map (·.text document.text)) =
          some ".b\x7b\x7d" := by decide +kernel
    rintro rule hrule ⟨within, hwithin, -⟩
    rw [hrule, Option.map_some, Option.some.injEq] at hlast
    have hfirst := congrArg List.head? hwithin
    rw [hlast, List.head?_cons] at hfirst
    exact absurd hfirst (by decide)
  obtain ⟨block, hblock, hpart⟩ := Option.map_eq_some_iff.mp hparts
  obtain ⟨houtput, hnamed, htext, hcss⟩ := by simpa only [Prod.mk.injEq] using hpart
  have hadmitted : ofBody "! start:x.css " = .opening block.outputName := by rw [hopening, houtput]
  obtain ⟨-, -, -, -, hplain, hresplit⟩ :=
    pragma_of_block document {} hoptions block map (.inr ⟨_, hadmitted⟩)
  have hnames := hplain hnamed Template.isPlain_default
  obtain ⟨single, hsingle, -, hdropped, -⟩ :=
    hresplit 1 hclean hmark hblock hsealed document.path document.map {}
  exact ⟨hoptions, block, single, hblock, ⟨_, hadmitted⟩, hcss, hsingle,
    (hdropped hnames).trans htext⟩

/-- A comment whose file name has another dot is content, and an at-rule that ended with the
block takes the comment in. -/
theorem not_stalePragma_of_dots :
    (¬ ∀ (path : String) (options : Options) (block : Block), options.fault? = none →
      ".css".toList <:+ path.toList → ".css".toList <:+ options.filename.pattern.toList →
      (block.isDocument = true ∨ ∃ comment, ofBody comment = .opening block.outputName) →
      ofBody (.ofList (pragmaBody (block.fileName path options))) = .stalePragma) ∧
    ¬ ∀ (document : Document) (options : Options) (id : Nat) (block single : Block)
      (map : SourceMap), options.fault? = none →
      (Stylesheet.ofText document.text).isClean = true →
      (ofDocument document options).blocks[id]? = some block →
      ofBody (.ofList (pragmaBody (block.fileName document.path options))) = .stalePragma →
      (ofDocument { document with
        text := (block.render document.path options (some map)).css } options).blocks =
          [single] →
      single.text = block.text := by
  constructor
  · intro hclaim
    have hstale := hclaim "main.min.css" {} (.document "main.min.css") (by decide)
      (by decide) (by decide) (.inl rfl)
    exact absurd hstale (by decide)
  · intro hclaim
    let document : Document := { path := "main.css", text := "@import \"x\"" }
    let map : SourceMap := ⟨none, #["a.scss"], [], #[#[⟨0, some ⟨0, 1, 0⟩⟩]]⟩
    have hclean : (Stylesheet.ofText document.text).isClean = true := by decide +kernel
    have hkept : ((ofDocument document {}).blocks[0]?.map fun block =>
        (block.text, ofBody (.ofList (pragmaBody (block.fileName document.path {}))),
          (ofDocument { document with
            text := (block.render document.path {} (some map)).css } {}).blocks.map (·.text))) =
        some ("@import \"x\"", .stalePragma,
          ["@import \"x\"\n/*# sourceMappingURL=main.css.map*/"]) := by decide +kernel
    obtain ⟨block, hblock, hpart⟩ := Option.map_eq_some_iff.mp hkept
    obtain ⟨htext, hstale, htexts⟩ := by simpa only [Prod.mk.injEq] using hpart
    obtain ⟨single, hsingle, hkeptText⟩ := List.map_eq_singleton_iff.mp htexts
    have hsame := hclaim document {} 0 block single map (by decide) hclean hblock hstale
      hsingle
    rw [hkeptText, htext] at hsame
    exact absurd hsame (by decide)

end Routing

end StyleSplit
