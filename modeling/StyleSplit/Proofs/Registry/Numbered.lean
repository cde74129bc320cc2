import StyleSplit.Proofs.Registry
import StyleSplit.Proofs.Text.Replace

/-! The names of blocks that are made when a name comes up again: the first numbered name
that is free. It can be declared by a delimiter later, and then two blocks have it. -/

namespace StyleSplit.Registry

variable {registry start : Registry} {documentName name : String} {number id later : Nat}
  {operation : Operation} {operations before : List Operation} {block twin : Block}

theorem numbered_inj {first second : Nat} (h : numbered name first = numbered name second) :
    first = second := by
  rw [numbered, numbered, String.append_left_inj, String.append_right_inj] at h
  exact Nat.repr_inj.mp h

/-- Of more numbers than there are names in use, one is free. -/
theorem exists_numbered_not_mem (name : String) (used : List String) :
    ∃ index ≤ used.length, numbered name (index + 2) ∉ used := by
  by_contra hnone
  push Not at hnone
  have hnodup : ((List.range (used.length + 1)).map fun index =>
      numbered name (index + 2)).Nodup := by
    refine List.nodup_range.map fun first second hsame => ?_
    exact Nat.add_right_cancel (numbered_inj hsame)
  have hsubset : ((List.range (used.length + 1)).map fun index =>
      numbered name (index + 2)) ⊆ used := by
    intro candidate hcandidate
    obtain ⟨index, hindex, rfl⟩ := List.mem_map.mp hcandidate
    exact hnone index (Nat.le_of_lt_succ (List.mem_range.mp hindex))
  have hlength := (hnodup.subperm hsubset).length_le
  rw [List.length_map, List.length_range] at hlength
  exact absurd hlength (Nat.not_succ_le_self _)

theorem exists_nextName (registry : Registry) (name : String) :
    ∃ number, registry.nextName name = numbered name number ∧
      IsLeast {number | 2 ≤ number ∧ numbered name number ∉ registry.outputNames} number := by
  obtain ⟨bound, hbound, hfree⟩ := exists_numbered_not_mem name registry.outputNames
  unfold nextName
  dsimp only
  rw [List.find?_map]
  cases hfound : (List.range (registry.outputNames.length + 1)).find?
      ((fun candidate => !(Std.HashSet.ofList registry.outputNames).contains candidate) ∘
        fun index => numbered name (index + 2)) with
  | none =>
      have hused := List.find?_eq_none.mp hfound bound
        (List.mem_range.mpr (Nat.lt_succ_of_le hbound))
      simp [hfree] at hused
  | some index =>
      obtain ⟨hunused, -, hearlier⟩ := List.find?_range_eq_some.mp hfound
      refine ⟨index + 2, rfl, ⟨Nat.le_add_left .., by simpa using hunused⟩, ?_⟩
      rintro other ⟨htwo, hother⟩
      by_contra hless
      have hused := hearlier (other - 2) (by omega)
      rw [Function.comp_apply, Nat.sub_add_cancel htwo] at hused
      simp [hother] at hused

theorem length_le_stem (name : String) :
    name.toList.length ≤ (Template.stem name).length + ".css".toList.length := by
  unfold Template.stem Text.dropEnd
  cases hrest : Text.after? ".css".toList.reverse name.toList.reverse with
  | none => exact Nat.le_add_right ..
  | some rest =>
      have hlength := congrArg List.length (Text.after?_eq_some_iff.mp hrest)
      rw [List.length_append, List.length_reverse, List.length_reverse] at hlength
      rw [List.length_reverse, hlength, Nat.add_comm]

theorem numbered_ne (name : String) (number : Nat) : numbered name number ≠ name := by
  intro hsame
  have hlength := congrArg (·.toList.length) hsame
  have hstem := length_le_stem name
  have hdash : "-".toList.length = 1 := by decide
  simp only [numbered, String.toList_append, List.length_append, String.toList_ofList] at hlength
  omega

/-! What the names in use are, in terms of the blocks. -/

theorem getElem?_made (h : registry.blocks[id]? = some block) :
    registry.made[id]? = some block.blank := by
  rw [made, Array.getElem?_map, h]
  rfl

theorem Sound.pos_of_named (h : registry.Sound documentName)
    (hblock : registry.blocks[id]? = some block) (hnamed : block.isDocument = false) :
    0 < id := by
  by_contra hzero
  have hdocument := (h.isDocument_iff id block.blank (getElem?_made hblock)).mpr (by omega)
  exact absurd (hnamed.symm.trans hdocument) Bool.false_ne_true

theorem exists_isNamed_made_iff (registry : Registry) (name : String) :
    (∃ block ∈ registry.made, block.IsNamed name) ↔
      ∃ block ∈ registry.blocks, block.IsNamed name := by
  simp only [made, Array.mem_map, exists_exists_and_eq_and]
  rfl

theorem Sound.mem_outputNames_iff (h : registry.Sound documentName) (name : String) :
    name ∈ registry.outputNames ↔
      ∃ block ∈ registry.blocks, block.isDocument = false ∧ block.outputName = name := by
  rw [h.outputNames]
  simp only [made, Array.mem_map, exists_exists_and_eq_and]
  rfl

def IsFree (blocks : Array Block) (name : String) (number : Nat) : Prop :=
  2 ≤ number ∧ ∀ block ∈ blocks, block.isDocument = false →
    block.outputName ≠ numbered name number

instance (blocks : Array Block) (name : String) (number : Nat) :
    Decidable (IsFree blocks name number) :=
  inferInstanceAs (Decidable (_ ∧ _))

theorem Sound.isFree_iff (h : registry.Sound documentName) :
    IsFree registry.blocks name number ↔
      2 ≤ number ∧ numbered name number ∉ registry.outputNames := by
  rw [h.mem_outputNames_iff]
  simp [IsFree]

theorem Sound.exists_isFree_le (h : registry.Sound documentName) (name : String) :
    ∃ number ≤ registry.blocks.size + 1, IsFree registry.blocks name number := by
  obtain ⟨index, hindex, hfree⟩ :=
    exists_numbered_not_mem name (registry.blocks.toList.tail.map (·.outputName))
  have hsize := h.size_pos
  rw [List.length_map, List.length_tail, Array.length_toList] at hindex
  refine ⟨index + 2, by omega, Nat.le_add_left .., ?_⟩
  intro block hblock hnamed hsame
  apply hfree
  obtain ⟨id, hid⟩ := Array.mem_iff_getElem?.mp hblock
  obtain ⟨place, rfl⟩ := Nat.exists_eq_succ_of_ne_zero (h.pos_of_named hid hnamed).ne'
  refine List.mem_map.mpr ⟨block, List.mem_of_getElem? (i := place) ?_, hsame⟩
  rw [List.getElem?_tail, Array.getElem?_toList]
  exact hid

theorem Sound.nextName_eq (h : registry.Sound documentName) (name : String) :
    ∃ number, IsLeast {number | IsFree registry.blocks name number} number ∧
      registry.nextName name = numbered name number := by
  obtain ⟨number, hname, hleast⟩ := registry.exists_nextName name
  simp only [← h.isFree_iff] at hleast
  exact ⟨number, hleast, hname⟩

/-! Which operation made a block. -/

/-- The operation makes the block: the first one of a name, or a further one, which has a
name of its own. -/
inductive Makes (registry : Registry) (operation : Operation) (block : Block) : Prop
  | first (hname : operation.name? = some block.identity)
      (hnew : registry.latest.lookup block.identity = none)
      (houtput : block.outputName = block.identity)
  | again (openedAt : Span) (hopens : operation = .openBlock block.identity openedAt)
      (hknown : (registry.latest.lookup block.identity).isSome = true)
      (houtput : block.outputName = registry.nextName block.identity)

theorem Makes.of_blank (h : registry.Makes operation block.blank) :
    registry.Makes operation block := by
  cases h with
  | first hname hnew houtput => exact .first hname hnew houtput
  | again openedAt hopens hknown houtput => exact .again openedAt hopens hknown houtput

theorem made_getOrCreate (hname : operation.name? = some name) :
    (registry.getOrCreate name).1.made = registry.made ∨
      ∃ block, registry.Makes operation block ∧
        (registry.getOrCreate name).1.made = registry.made.push block := by
  unfold getOrCreate
  cases hlookup : registry.latest.lookup name with
  | some id => exact .inl rfl
  | none => exact .inr ⟨_, .first hname hlookup rfl, made_create registry name name⟩

theorem made_perform (registry : Registry) (operation : Operation) :
    (registry.perform operation).made = registry.made ∨
      ∃ block, registry.Makes operation block ∧
        (registry.perform operation).made = registry.made.push block := by
  cases operation with
  | getOrCreate name => exact made_getOrCreate rfl
  | openBlock name openedAt =>
      unfold perform openBlock
      dsimp only
      by_cases hnew : registry.policy = .separate ∧ (registry.latest.lookup name).isSome
      · rw [if_pos hnew]
        exact .inr ⟨_, .again openedAt rfl hnew.2 rfl, made_create registry name _⟩
      · rw [if_neg hnew]
        exact made_getOrCreate rfl
  | closeBlock name closedAt =>
      unfold perform closeBlock
      dsimp only
      split_ifs
      · exact .inl rfl
      · exact .inl rfl
      · exact .inl rfl
  | append text origins => exact .inl (made_appendActive registry text origins)

/-- Of these operations the one after `before` makes the block with that number. -/
structure MadeBy (start : Registry) (operations before : List Operation)
    (operation : Operation) (id : Nat) : Prop where
  within : before ++ [operation] <+: operations
  size_before : (start.run before).blocks.size = id
  size_after : (start.run (before ++ [operation])).blocks.size = id + 1

theorem run_concat (start : Registry) (operations : List Operation) (operation : Operation) :
    start.run (operations ++ [operation]) = (start.run operations).perform operation :=
  List.foldl_concat ..

theorem MadeBy.append (h : start.MadeBy operations before operation id)
    (further : List Operation) : start.MadeBy (operations ++ further) before operation id :=
  ⟨h.within.trans (List.prefix_append ..), h.size_before, h.size_after⟩

theorem exists_madeBy (hid : start.blocks.size ≤ id)
    (hblock : (start.run operations).made[id]? = some block) :
    ∃ before operation, start.MadeBy operations before operation id ∧
      (start.run before).Makes operation block := by
  induction operations using List.reverseRecOn with
  | nil =>
      have hlt := (Array.getElem?_eq_some_iff.mp hblock).1
      rw [size_made] at hlt
      exact absurd hid (Nat.not_le_of_gt hlt)
  | append_singleton operations operation ih =>
      have hlater {before : List Operation} {maker : Operation}
          (h : start.MadeBy operations before maker id ∧ (start.run before).Makes maker block) :=
        And.intro (h.1.append [operation]) h.2
      rw [run_concat] at hblock
      rcases (start.run operations).made_perform operation with hsame | ⟨new, hmakes, hpush⟩
      · rw [hsame] at hblock
        obtain ⟨before, maker, hmade⟩ := ih hblock
        exact ⟨before, maker, hlater hmade⟩
      · rw [hpush, Array.getElem?_push, size_made] at hblock
        split at hblock
        · rename_i hlast
          cases hblock
          refine ⟨operations, operation, ⟨List.prefix_rfl, hlast.symm, ?_⟩, hmakes⟩
          rw [run_concat, ← size_made, hpush, Array.size_push, size_made, hlast]
        · obtain ⟨before, maker, hmade⟩ := ih hblock
          exact ⟨before, maker, hlater hmade⟩

theorem MadeBy.made_before (h : start.MadeBy operations before operation later)
    (hlt : id < later) (hblock : (start.run operations).blocks[id]? = some block) :
    (start.run before).made[id]? = some block.blank := by
  obtain ⟨rest, rfl⟩ := h.within
  rw [List.append_assoc, run, List.foldl_append] at hblock
  have hbound : id < (start.run before).blocks.size := by rwa [h.size_before]
  have hold := Array.getElem?_eq_getElem hbound
  obtain ⟨kept, hkept, hblank⟩ := exists_kept_run ([operation] ++ rest) hold
  rw [run, run, hblock] at hkept
  cases hkept
  rw [hblank]
  exact getElem?_made hold

theorem openBlock_of_known (hpolicy : registry.policy = .separate)
    (hknown : (registry.latest.lookup name).isSome = true) (openedAt : Span) :
    (registry.openBlock name openedAt).1.blocks =
        registry.blocks.push (.named name (registry.nextName name)) ∧
      (registry.openBlock name openedAt).2 = registry.blocks.size := by
  rw [openBlock, if_pos ⟨hpolicy, hknown⟩]
  exact ⟨rfl, rfl⟩

/-- A block that has the name of an earlier one was the first of its name, and the earlier
one had got that name as a number of its own. -/
theorem exists_declared {start : Registry} (hstart : start.Sound documentName)
    (hsize : start.blocks.size = 1) (hlt : id < later)
    (hblock : (start.run operations).blocks[id]? = some block)
    (htwin : (start.run operations).blocks[later]? = some twin)
    (hnamed : block.isDocument = false) (hsame : block.outputName = twin.outputName) :
    ∃ before operation, start.MadeBy operations before operation later ∧
      operation.name? = some twin.identity ∧
      (∀ previous ∈ before, previous.name? ≠ some twin.identity) ∧
      twin.outputName = twin.identity ∧
      ∃ first openedAt, start.MadeBy before first (.openBlock block.identity openedAt) id ∧
        (∃ known ∈ (start.run first).blocks, known.IsNamed block.identity) ∧
        (start.run first).nextName block.identity = twin.identity := by
  have hpos : start.blocks.size ≤ id :=
    hsize.trans_le ((hstart.run operations).pos_of_named hblock hnamed)
  obtain ⟨before, operation, hmade, hmakes⟩ := exists_madeBy (by omega) (getElem?_made htwin)
  have hsound := hstart.run before
  have hold := hmade.made_before hlt hblock
  have hused : block.outputName ∈ (start.run before).outputNames :=
    (hsound.outputNames _).mpr ⟨block.blank, Array.mem_of_getElem? hold, hnamed, rfl⟩
  cases hmakes.of_blank with
  | again openedAt hopens hknown houtput =>
      obtain ⟨number, hname, hleast⟩ := exists_nextName (start.run before) twin.identity
      rw [hsame, houtput, hname] at hused
      exact absurd hused hleast.1.2
  | first hname hnew houtput =>
      have hunknown : ¬ ∃ known ∈ (start.run before).made, known.IsNamed twin.identity := by
        rw [← hsound.lookup_isSome_iff, hnew]
        exact Bool.false_ne_true
      refine ⟨before, operation, hmade, hname, ?_, houtput, ?_⟩
      · intro previous hprevious hasked
        exact hunknown ((hstart.exists_isNamed_run before twin.identity).mpr
          (.inr ⟨previous, hprevious, hasked⟩))
      · obtain ⟨first, maker, hfirst, hmaker⟩ := exists_madeBy hpos hold
        cases hmaker.of_blank with
        | first _ _ hidentity =>
            exact absurd ⟨block.blank, Array.mem_of_getElem? hold, hnamed,
              hidentity.symm.trans (hsame.trans houtput)⟩ hunknown
        | again openedAt hopens hknown hnext =>
            subst hopens
            refine ⟨first, openedAt, hfirst, ?_, hnext.symm.trans (hsame.trans houtput)⟩
            rw [← exists_isNamed_made_iff]
            exact (hstart.run first).lookup_isSome_iff.mp hknown

/-- When every occurrence of a name has a block of its own, a name that comes up again gives
a block whose name ends in the least number from two on that is free, and no named block has
that name. So a name can only be given twice when the later block is the first one of a name
that was such a numbered one before. Below 2 ^ 31 - 2 blocks the number and the one after it
fit a signed counter of 32 bits. -/
theorem outputNames_run_separate (documentName : String) (operations : List Operation) :
    let start := new documentName .separate
    let registry := start.run operations
    (∀ name openedAt, (∃ block ∈ registry.blocks, block.IsNamed name) →
      ∃ number, IsLeast {number | IsFree registry.blocks name number} number ∧
        number ≤ registry.blocks.size + 1 ∧
        (registry.blocks.size + 2 < 2 ^ 31 → number + 1 < 2 ^ 31) ∧
        registry.nextName name = numbered name number ∧ registry.nextName name ≠ name ∧
        (registry.openBlock name openedAt).1.blocks =
          registry.blocks.push (.named name (numbered name number)) ∧
        (registry.openBlock name openedAt).2 = registry.blocks.size) ∧
    ∀ (id later : Nat) (block twin : Block), id < later →
      registry.blocks[id]? = some block → registry.blocks[later]? = some twin →
      block.isDocument = false → twin.isDocument = false →
      block.outputName = twin.outputName →
      ∃ before operation, start.MadeBy operations before operation later ∧
        operation.name? = some twin.identity ∧
        (∀ previous ∈ before, previous.name? ≠ some twin.identity) ∧
        twin.outputName = twin.identity ∧
        ∃ first openedAt, start.MadeBy before first (.openBlock block.identity openedAt) id ∧
          (∃ known ∈ (start.run first).blocks, known.IsNamed block.identity) ∧
          (start.run first).nextName block.identity = twin.identity := by
  intro start registry
  have hsound : registry.Sound documentName := (sound_new documentName .separate).run operations
  have hpolicy : registry.policy = .separate := policy_run start operations
  constructor
  · intro name openedAt hknown
    rw [← exists_isNamed_made_iff, ← hsound.lookup_isSome_iff] at hknown
    obtain ⟨number, hleast, hname⟩ := hsound.nextName_eq name
    obtain ⟨bound, hbound, hfree⟩ := hsound.exists_isFree_le name
    obtain ⟨hblocks, hid⟩ := openBlock_of_known hpolicy hknown openedAt
    rw [hname] at hblocks
    have hle : number ≤ registry.blocks.size + 1 := Nat.le_trans (hleast.2 hfree) hbound
    refine ⟨number, hleast, hle, fun hfits => by omega, hname, ?_, hblocks, hid⟩
    rw [hname]
    exact numbered_ne name number
  · intro id later block twin hlt hblock htwin hnamed _ hsame
    exact exists_declared (sound_new documentName .separate) rfl hlt hblock htwin hnamed hsame

/-- A name that is numbered past a declared one, and a declared name that a number had taken. -/
theorem outputNames_run_separate_declared :
    let start := new "main.css" .separate
    let declared : List Operation := [.openBlock "a.css" ⟨0, 19⟩, .getOrCreate "a-2.css"]
    let repeated : List Operation := [.openBlock "a.css" ⟨0, 19⟩, .openBlock "a.css" ⟨20, 39⟩]
    let operations := repeated ++ [.getOrCreate "a-2.css"]
    (start.run declared).nextName "a.css" = "a-3.css" ∧
      (start.run operations).blocks = #[.document "main.css", .named "a.css" "a.css",
        .named "a.css" "a-2.css", .named "a-2.css" "a-2.css"] ∧
      ∃ before operation first openedAt, start.MadeBy operations before operation 3 ∧
        operation.name? = some "a-2.css" ∧
        start.MadeBy before first (.openBlock "a.css" openedAt) 2 ∧
        (start.run first).nextName "a.css" = "a-2.css" := by
  intro start declared repeated operations
  have hdeclared : (start.run declared).blocks = #[.document "main.css",
      .named "a.css" "a.css", .named "a-2.css" "a-2.css"] := by decide
  have honce : (start.run [.openBlock "a.css" ⟨0, 19⟩]).blocks =
      #[.document "main.css", .named "a.css" "a.css"] := by decide
  obtain ⟨hopenDeclared, -⟩ := outputNames_run_separate "main.css" declared
  obtain ⟨hopenOnce, -⟩ := outputNames_run_separate "main.css" [.openBlock "a.css" ⟨0, 19⟩]
  obtain ⟨number, hleast, -, -, hname, -⟩ := hopenDeclared "a.css" ⟨0, 0⟩
    (by rw [hdeclared]; decide)
  obtain ⟨second, hsecond, -, -, -, -, hblocks, -⟩ := hopenOnce "a.css" ⟨20, 39⟩
    (by rw [honce]; decide)
  rw [hdeclared] at hleast
  rw [honce] at hsecond hblocks
  have hthree : number = 3 := by
    have hle : number ≤ 3 := hleast.2 (by decide : IsFree _ "a.css" 3)
    have hne : number ≠ 2 := by
      rintro rfl
      exact absurd hleast.1 (by decide)
    have hge : 2 ≤ number := hleast.1.1
    omega
  have htwo : second = 2 :=
    Nat.le_antisymm (hsecond.2 (by decide : IsFree _ "a.css" 2)) hsecond.1.1
  subst hthree htwo
  have hnew : (start.run repeated).latest.lookup "a-2.css" = none := by decide
  have hrun : (start.run operations).blocks = #[.document "main.css", .named "a.css" "a.css",
      .named "a.css" "a-2.css", .named "a-2.css" "a-2.css"] := by
    rw [run_concat, perform, getOrCreate, hnew]
    change (start.run repeated).blocks.push _ = _
    rw [show (start.run repeated).blocks = _ from hblocks]
    decide
  refine ⟨hname.trans (by decide), hrun, ?_⟩
  have hlater : (start.run operations).blocks[3]? = some (.named "a-2.css" "a-2.css") := by
    rw [hrun]
    rfl
  have hearlier : (start.run operations).blocks[2]? = some (.named "a.css" "a-2.css") := by
    rw [hrun]
    rfl
  obtain ⟨-, htwins⟩ := outputNames_run_separate "main.css" operations
  obtain ⟨before, operation, hmade, hasked, -, -, first, openedAt, hfirst, -, htaken⟩ :=
    htwins 2 3 _ _ (by decide) hearlier hlater rfl rfl rfl
  exact ⟨before, operation, first, openedAt, hmade, hasked, hfirst, htaken⟩

end StyleSplit.Registry
