import StyleSplit.Proofs.Outcome
import StyleSplit.Proofs.Routing.Policies
import StyleSplit.Proofs.Template

/-! Templates with a place for the name: whatever digests they are filled in with, two names
never make one path, so that a block can only collide with the document. -/

namespace StyleSplit

open CommentClass (IsName)
open Text (isNameChar replaceAll)

def DigestFormat.width : DigestFormat → Nat
  | .hex => 64
  | .base64 => 43

namespace Digest

theorem length_toHex (bytes : List UInt8) : (toHex bytes).length = 2 * bytes.length := by
  rw [toHex, List.length_flatMap]
  simp [Nat.mul_comm]

theorem length_toBase64 (bytes : List UInt8) :
    (toBase64 bytes).length = (4 * bytes.length + 2) / 3 := by
  fun_induction toBase64 bytes with
  | case1 => rfl
  | case2 => simp
  | case3 => simp
  | case4 a b c bytes group ih =>
      simp only [List.length_cons, ih]
      omega

theorem length_ofContents (contents : String) (options : DigestOptions) :
    (ofContents contents options).toList.length = min options.length options.format.width := by
  rw [ofContents, String.toList_ofList, List.length_take]
  congr 1
  have hbytes := Sha256.length_hash (Text.utf8 contents.toList)
  cases options.format with
  | hex => rw [render, length_toHex, hbytes, DigestFormat.width]
  | base64 => rw [render, length_toBase64, hbytes, DigestFormat.width]

end Digest

namespace Template

/-- All square brackets of a template are those of its placeholders. -/
def OnlyPlaceholders (template : Template) : Prop :=
  ∃ pieces : List Piece, (∀ c, .plain c ∈ pieces → c ≠ '[' ∧ c ≠ ']') ∧
    template.pattern.toList = pieces.flatMap Piece.pattern

variable {pieces : List Piece} {stem other hash digest : List Char}

theorem name_mem_of_contains (hplain : ∀ c, .plain c ∈ pieces → c ≠ '[')
    (h : Text.contains nameMark (pieces.flatMap Piece.pattern) = true) : .name ∈ pieces := by
  induction pieces with
  | nil => cases h
  | cons piece pieces ih =>
      obtain ⟨hpiece, hpieces⟩ := by
        simpa only [List.mem_cons, or_imp, forall_and] using hplain
      rw [List.flatMap_cons] at h
      cases piece with
      | plain c =>
          rw [Piece.pattern, Text.contains_append_of_forall_ne nameMark_ne_nil
            (List.forall_mem_singleton.mpr (head?_ne head?_nameMark (hpiece c rfl)))] at h
          exact List.mem_cons_of_mem _ (ih hpieces h)
      | name => exact List.mem_cons_self
      | digest =>
          rw [Piece.pattern, hashMark_eq, List.cons_append, Text.contains,
            startsWith_nameMark_hashMark, Bool.false_or,
            Text.contains_append_of_forall_ne nameMark_ne_nil
              fun c hc => head?_ne head?_nameMark (ne_bracket_of_mem_tail hc)] at h
          exact List.mem_cons_of_mem _ (ih hpieces h)

theorem apply_eq {template : Template} {name : String}
    (hplain : ∀ c, .plain c ∈ pieces → c ≠ '[')
    (hpattern : template.pattern.toList = pieces.flatMap Piece.pattern)
    (hstem : ∀ c ∈ Template.stem name, c ≠ '[') (contents : String) (options : DigestOptions) :
    (template.apply name contents options).toList = pieces.flatMap
      (Piece.filled (Template.stem name) (Digest.ofContents contents options).toList) := by
  have hnamed : replaceAll nameMark (Template.stem name) template.pattern.toList =
      pieces.flatMap (Piece.filled (Template.stem name) hashMark) := by
    have hall := @replaceAll_nameMark pieces (Template.stem name) hplain []
    rwa [Text.replaceAll_nil, List.append_nil, List.append_nil, ← hpattern] at hall
  rw [apply, String.toList_ofList, hnamed]
  cases huses : template.usesHash with
  | true =>
      have hall := replaceAll_hashMark hplain hstem (Digest.ofContents contents options).toList []
      rwa [Text.replaceAll_nil, List.append_nil, List.append_nil] at hall
  | false =>
      refine flatMap_filled_of_not_mem ?_ _
      intro hdigest
      have hwhole : template.pattern.toList = [] ++ (pieces.flatMap Piece.pattern ++ []) := by
        rw [hpattern, List.nil_append, List.append_nil]
      rw [usesHash_of_mem hwhole hdigest] at huses
      cases huses

theorem length_filled_lt (hname : .name ∈ pieces) (hhash : hash.length = digest.length)
    (hstem : stem.length < other.length) :
    (pieces.flatMap (Piece.filled stem hash)).length <
      (pieces.flatMap (Piece.filled other digest)).length := by
  rw [List.length_flatMap, List.length_flatMap]
  refine List.sum_lt_sum _ _ ?_ ⟨.name, hname, hstem⟩
  intro piece _
  cases piece with
  | plain => exact Nat.le_refl _
  | name => exact hstem.le
  | digest => exact hhash.le

theorem eq_of_filled (hname : .name ∈ pieces) (hhash : hash.length = digest.length)
    (hstem : stem.length = other.length)
    (h : pieces.flatMap (Piece.filled stem hash) = pieces.flatMap (Piece.filled other digest)) :
    stem = other := by
  induction pieces with
  | nil => cases hname
  | cons piece pieces ih =>
      rw [List.flatMap_cons, List.flatMap_cons] at h
      have hlength : (piece.filled stem hash).length = (piece.filled other digest).length := by
        cases piece with
        | plain => rfl
        | name => exact hstem
        | digest => exact hhash
      obtain ⟨hpiece, hpieces⟩ := List.append_inj h hlength
      rcases List.mem_cons.mp hname with rfl | hlater
      · exact hpiece
      · exact ih hlater hpieces

theorem length_le_of_filled (hname : .name ∈ pieces) (hhash : hash.length = digest.length)
    (h : pieces.flatMap (Piece.filled stem hash) = pieces.flatMap (Piece.filled other digest)) :
    other.length ≤ stem.length := by
  by_contra hlt
  have hshorter := length_filled_lt hname hhash (Nat.lt_of_not_le hlt)
  rw [h] at hshorter
  exact Nat.lt_irrefl _ hshorter

/-- The filled text tells the name, wherever it stands and whatever is beside it. -/
theorem filled_inj (hname : .name ∈ pieces) (hhash : hash.length = digest.length)
    (h : pieces.flatMap (Piece.filled stem hash) = pieces.flatMap (Piece.filled other digest)) :
    stem = other := by
  have hshorter := length_le_of_filled hname hhash h
  have hlonger := length_le_of_filled hname hhash.symm h.symm
  exact eq_of_filled hname hhash (Nat.le_antisymm hlonger hshorter) h

theorem stem_eq_of_apply {template : Template} (huses : template.usesName = true)
    (hbrackets : template.OnlyPlaceholders) {first second : String}
    (hfirst : ∀ c ∈ Template.stem first, c ≠ '[') (hsecond : ∀ c ∈ Template.stem second, c ≠ '[')
    {contents later : String} {options : DigestOptions}
    (h : template.apply first contents options = template.apply second later options) :
    Template.stem first = Template.stem second := by
  obtain ⟨pieces, hplain, hpattern⟩ := hbrackets
  have hopening := fun c hc => (hplain c hc).1
  rw [usesName, hpattern] at huses
  have htexts := congrArg String.toList h
  rw [apply_eq hopening hpattern hfirst, apply_eq hopening hpattern hsecond] at htexts
  refine filled_inj (name_mem_of_contains hopening huses) ?_ htexts
  rw [Digest.length_ofContents, Digest.length_ofContents]

end Template

theorem Path.sibling_inj {path first second : String}
    (h : sibling path first = sibling path second) : first = second := by
  unfold sibling at h
  split at h
  · have htexts := List.append_cancel_left (String.ofList_injective h)
    exact String.toList_inj.mp (List.cons.inj htexts).2
  · exact h

theorem Block.path_ne {options : Options} (huses : options.filename.usesName = true)
    (hbrackets : options.filename.OnlyPlaceholders) {first second : Block}
    {stem other : List Char} (hfirst : first.isDocument = false)
    (hsecond : second.isDocument = false)
    (hname : first.outputName.toList = stem ++ ".css".toList)
    (hother : second.outputName.toList = other ++ ".css".toList)
    (hstem : ∀ c ∈ stem, isNameChar c = true) (hchars : ∀ c ∈ other, isNameChar c = true)
    (hne : stem ≠ other) (documentPath : String) :
    first.path documentPath options ≠ second.path documentPath options := by
  intro h
  rw [path, path, hfirst, hsecond] at h
  have hnames := Template.stem_eq_of_apply huses hbrackets
    (by
      rw [Template.stem_eq hname]
      exact fun c hc => Template.ne_bracket_of_isNameChar (hstem c hc))
    (by
      rw [Template.stem_eq hother]
      exact fun c hc => Template.ne_bracket_of_isNameChar (hchars c hc))
    (Path.sibling_inj h)
  rw [Template.stem_eq hname, Template.stem_eq hother] at hnames
  exact hne hnames

theorem Rule.exists_opening {rule : Rule} {name : String} (h : rule.openingName? = some name) :
    ∃ comment, CommentClass.ofBody comment = .opening name := by
  unfold openingName? at h
  split at h
  · rename_i hclass
    cases h
    obtain ⟨body, -, hbody⟩ := Option.map_eq_some_iff.mp hclass
    exact ⟨body, hbody⟩
  · cases h

theorem Nesting.isName_of_mem_created {policy : ReopenPolicy} {rules : List Rule} {name : String}
    (h : name ∈ created policy rules) : IsName name.toList := by
  have hopened : name ∈ rules.filterMap Rule.openingName? := by
    cases policy with
    | append => exact List.mem_eraseDups.mp h
    | separate => exact h
  obtain ⟨rule, -, hrule⟩ := List.mem_filterMap.mp hopened
  exact CommentClass.isName_iff_opening.mpr (Rule.exists_opening hrule)

namespace Routing

variable {document : Document} {stylesheet : Stylesheet} {options : Options}

/-- When blocks are gone on with, each named block has a name that a delimiter gave, which is
no other block's. -/
theorem outputName_of_append (hreopen : options.reopen = .append)
    (hclean : stylesheet.problems = []) {id : Nat} {block : Block}
    (hblock : (ofStylesheet document stylesheet options).blocks[id]? = some block)
    (hnamed : block.isDocument = false) :
    IsName block.outputName.toList ∧ ∀ (place : Nat) (twin : Block),
      (ofStylesheet document stylesheet options).blocks[place]? = some twin →
        twin.isDocument = false → twin.outputName = block.outputName → place = id := by
  rw [(ofStylesheet_eq_stateAfter document options hclean).1]
  rw [(ofStylesheet_eq_stateAfter document options hclean).1] at hblock
  have hfollows := (tracks_stateAfter document options stylesheet.rules).follows
  have hsound := sound_stateAfter document options stylesheet.rules
  have hpolicy := hfollows.policy_eq.trans hreopen
  have hmade {place : Nat} {twin : Block}
      (htwin : (stateAfter document options stylesheet.rules).registry.blocks.toList[place]? =
        some twin) :
      (stateAfter document options stylesheet.rules).registry.made[place]? = some twin.blank := by
    rw [Array.getElem?_toList] at htwin
    rw [Registry.made, Array.getElem?_map, htwin, Option.map_some]
  obtain ⟨hidentity, hunique⟩ := hsound.unique hpolicy id block.blank (hmade hblock) hnamed
  constructor
  · have hlabel := List.mem_map_of_mem
      (f := fun block : Block => (block.identity, block.isDocument)) (List.mem_of_getElem? hblock)
    rw [hfollows.labels, Nesting.names_run, hnamed, List.mem_cons] at hlabel
    rcases hlabel with hdocument | hlater
    · cases (Prod.mk.inj hdocument).2
    · obtain ⟨name, hname, hpair⟩ := List.mem_map.mp hlater
      have houtput : block.outputName = name := hidentity.trans (Prod.mk.inj hpair).1.symm
      rw [houtput]
      exact Nesting.isName_of_mem_created hname
  · intro place twin htwin hother hsame
    obtain ⟨htwinIdentity, -⟩ := hsound.unique hpolicy place twin.blank (hmade htwin) hother
    exact hunique place twin.blank (hmade htwin)
      ⟨hother, htwinIdentity.symm.trans (hsame.trans hidentity)⟩

end Routing

namespace Outcome

variable {document : Document} {stylesheet : Stylesheet} {options : Options}

theorem exists_of_mem_collisions {path : Block → String} {blocks : List Block} {issue : Issue}
    (h : issue ∈ collisions path blocks) :
    ∃ (place id : Nat) (owner block : Block), place < id ∧ blocks[place]? = some owner ∧
      blocks[id]? = some block ∧ path owner = path block ∧
      issue = collisionOf path block owner := by
  obtain ⟨⟨block, claimed⟩, hclaim, hissue⟩ := List.mem_filterMap.mp h
  obtain ⟨owner, rfl, rfl⟩ := Option.map_eq_some_iff.mp hissue
  obtain ⟨id, hid⟩ := List.mem_iff_getElem?.mp hclaim
  rw [getElem?_claims, List.nil_append] at hid
  obtain ⟨claimer, hblock, hpair⟩ := Option.map_eq_some_iff.mp hid
  obtain ⟨rfl, howner⟩ := Prod.mk.inj hpair
  have hpath := List.find?_some howner
  obtain ⟨place, hplace⟩ := List.mem_iff_getElem?.mp (List.mem_of_find?_eq_some howner)
  rw [List.getElem?_take] at hplace
  split at hplace
  · rename_i hlt
    exact ⟨place, id, owner, claimer, hlt, hplace, hblock, of_decide_eq_true hpath, rfl⟩
  · cases hplace

theorem named_of_getElem? {id : Nat} {block : Block} (hpos : 0 < id)
    (hblock : (Routing.ofStylesheet document stylesheet options).blocks[id]? = some block) :
    stylesheet.problems = [] ∧ block.isDocument = false := by
  have hclean : stylesheet.problems = [] := by
    cases hproblems : stylesheet.problems with
    | nil => rfl
    | cons problem later =>
        rw [Routing.ofStylesheet, hproblems] at hblock
        cases hblock
  obtain ⟨main, others, hmain, -, hothers⟩ := Routing.exists_main document options hclean
  obtain ⟨index, rfl⟩ := Nat.exists_eq_succ_of_ne_zero (Nat.ne_of_gt hpos)
  rw [hmain, List.getElem?_cons_succ] at hblock
  exact ⟨hclean, hothers block (List.mem_of_getElem? hblock)⟩

/-- A template with a place for the name, all of whose brackets are those of placeholders,
gives different names different paths, whatever the contents. So where blocks are gone on
with, the only block whose path can be taken by another is that of the document. -/
theorem collisions_of_usesName (options : Options) (huses : options.filename.usesName = true)
    (hbrackets : options.filename.OnlyPlaceholders) :
    (∀ (documentPath : String) (first second : Block) (stem other : List Char),
      first.isDocument = false → second.isDocument = false →
      first.outputName.toList = stem ++ ".css".toList →
      second.outputName.toList = other ++ ".css".toList →
      (∀ c ∈ stem, isNameChar c = true) → (∀ c ∈ other, isNameChar c = true) → stem ≠ other →
      first.path documentPath options ≠ second.path documentPath options) ∧
    (options.reopen = .append → ∀ (document : Document) (stylesheet : Stylesheet)
      (path : String) (kept : Option String) (dropped : String),
      .collision path kept dropped ∈ (ofStylesheet document stylesheet options).issues →
      kept = none) := by
  constructor
  · intro documentPath first second stem other hfirst hsecond hname hother hstem hchars hne
    exact Block.path_ne huses hbrackets hfirst hsecond hname hother hstem hchars hne documentPath
  · intro hreopen document stylesheet path kept dropped hissue
    rw [ofStylesheet_eq] at hissue
    have hcollision := (List.mem_append.mp hissue).resolve_left fun hrouting => by
      cases Routing.isCollision_of_mem_issues hrouting
    obtain ⟨place, id, owner, block, hlt, howner, hblock, hpath, hcollides⟩ :=
      exists_of_mem_collisions hcollision
    obtain ⟨hclean, hnamed⟩ := named_of_getElem? (Nat.zero_lt_of_lt hlt) hblock
    injection hcollides with _ hkept _
    cases hdocument : owner.isDocument with
    | true =>
        rw [hkept, hdocument]
        rfl
    | false =>
        obtain ⟨⟨stem, -, hstem, hname⟩, -⟩ :=
          Routing.outputName_of_append hreopen hclean howner hdocument
        obtain ⟨⟨other, -, hchars, hother⟩, hunique⟩ :=
          Routing.outputName_of_append hreopen hclean hblock hnamed
        have hne : stem ≠ other := by
          rintro rfl
          have hsame := String.toList_inj.mp (hname.trans hother.symm)
          exact absurd (hunique place owner howner hdocument hsame) (Nat.ne_of_lt hlt)
        exact absurd hpath (Block.path_ne huses hbrackets hdocument hnamed hname hother hstem hchars
          hne document.path)

theorem collisions_of_usesName_digest :
    let options : Options := { filename := ⟨"[contenthash]-[name].css"⟩, hash := { length := 6 } }
    let document : Document := {
      path := "css/b287b4-a.css"
      text := "/*! start:a.css */.x\x7b\x7d/*! end:a.css */\n/*! start:b.css */.x\x7b\x7d" }
    let issues := (ofStylesheet document (.ofText document.text) options).issues
    options.filename.usesName = true ∧ options.filename.OnlyPlaceholders ∧
      (Block.named "a.css" "a.css").path document.path options ≠
        (Block.named "-a.css" "-a.css").path document.path options ∧
      issues = [.unclosed "b.css" ⟨39, 57⟩, .collision "css/b287b4-a.css" none "a.css"] ∧
      ∀ path kept dropped, .collision path kept dropped ∈ issues → kept = none := by
  intro options document issues
  have huses : options.filename.usesName = true := by decide
  have hbrackets : options.filename.OnlyPlaceholders := by
    refine ⟨[.digest, .plain '-', .name, .plain '.', .plain 'c', .plain 's', .plain 's'], ?_, ?_⟩
    · simp
    · decide
  have hissues : issues =
      [.unclosed "b.css" ⟨39, 57⟩, .collision "css/b287b4-a.css" none "a.css"] := by
    decide +kernel
  obtain ⟨hpaths, hkept⟩ := collisions_of_usesName options huses hbrackets
  refine ⟨huses, hbrackets, ?_, hissues, hkept rfl document (.ofText document.text)⟩
  exact hpaths document.path _ _ ['a'] ['-', 'a'] rfl rfl (by decide) (by decide)
    (List.all_eq_true.mp (by decide)) (List.all_eq_true.mp (by decide)) (by decide)

end Outcome

end StyleSplit
