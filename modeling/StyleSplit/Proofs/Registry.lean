import Mathlib
import StyleSplit.Proofs.Block.Append
import StyleSplit.Registry

/-! The registry over any run of its operations: what its tables and its stack say about
its blocks, and what an operation leaves of the blocks there are. -/

namespace StyleSplit

/-- A block that delimiters of that name stand for. -/
def Block.IsNamed (block : Block) (name : String) : Prop :=
  block.isDocument = false ∧ block.identity = name

instance (block : Block) (name : String) : Decidable (block.IsNamed name) :=
  inferInstanceAs (Decidable (_ ∧ _))

def Block.IsNewest (blocks : Array Block) (name : String) (id : Nat) : Prop :=
  (∃ block, blocks[id]? = some block ∧ block.IsNamed name) ∧
    ∀ (later : Nat) (block : Block), id < later → blocks[later]? = some block →
      ¬ block.IsNamed name

namespace Registry

inductive Operation where
  | getOrCreate (name : String)
  | openBlock (name : String) (openedAt : Span)
  | closeBlock (name : String) (closedAt : Span)
  | append (text : String) (origins : List (Nat × SourcePosition))

def Operation.name? : Operation → Option String
  | getOrCreate name | openBlock name _ => some name
  | closeBlock _ _ | append _ _ => none

def perform (registry : Registry) : Operation → Registry
  | .getOrCreate name => (registry.getOrCreate name).1
  | .openBlock name openedAt => (registry.openBlock name openedAt).1
  | .closeBlock name closedAt =>
      match registry.closeBlock name closedAt with
      | .ok (closed, _) => closed
      | .error _ => registry
  | .append text origins => registry.appendActive text origins

def run (registry : Registry) (operations : List Operation) : Registry :=
  operations.foldl perform registry

/-- The blocks as they were made, without what was appended to them since. -/
def made (registry : Registry) : Array Block :=
  registry.blocks.map Block.blank

/-- The stack, the table of names and the output names are those of the blocks. -/
structure Sound (registry : Registry) (documentName : String) : Prop where
  /-- Below all open blocks is that of the document, which is not open twice. -/
  stack : ∃ opened, registry.stack = opened ++ [⟨0, ⟨0, 0⟩⟩] ∧
    ∀ entry ∈ opened, 0 < entry.id ∧ entry.id < registry.blocks.size
  document : registry.made[0]? = some (.document documentName)
  isDocument_iff : ∀ (id : Nat) (block : Block), registry.made[id]? = some block →
    (block.isDocument = true ↔ id = 0)
  latest : ∀ name id, registry.latest.lookup name = some id ↔
    Block.IsNewest registry.made name id
  outputNames : ∀ name, name ∈ registry.outputNames ↔
    ∃ block ∈ registry.made, block.isDocument = false ∧ block.outputName = name
  /-- Blocks that are gone on with have names of their own. -/
  unique : registry.policy = .append → ∀ (id : Nat) (block : Block),
    registry.made[id]? = some block → block.isDocument = false →
      block.outputName = block.identity ∧
        ∀ (other : Nat) (twin : Block), registry.made[other]? = some twin →
          twin.IsNamed block.identity → other = id

/-- What an operation does to the blocks there are: each stays in its place under its
names, and only an append changes one of them, which is the active one. -/
structure Keeps (before : Registry) (operation : Operation) (after : Registry) : Prop where
  policy : after.policy = before.policy
  blocks : ∀ (id : Nat) (block : Block), before.blocks[id]? = some block →
    ∃ kept, after.blocks[id]? = some kept ∧ kept.blank = block.blank ∧
      (kept = block ∨ id = before.activeId ∧ ∃ text origins,
        operation = .append text origins ∧ kept = block.append text origins)

variable {registry : Registry} {documentName name outputName : String}

theorem made_new (documentName : String) (policy : ReopenPolicy) :
    (new documentName policy).made = #[.document documentName] := by
  simp [made, new, Block.blank, Block.document]

theorem made_create (registry : Registry) (name outputName : String) :
    (registry.create name outputName).1.made = registry.made.push (.named name outputName) :=
  Array.map_push

theorem made_appendActive (registry : Registry) (text : String)
    (origins : List (Nat × SourcePosition)) :
    (registry.appendActive text origins).made = registry.made := by
  apply Array.ext_getElem?
  intro id
  rw [made, made, appendActive, Array.getElem?_map, Array.getElem?_map, Array.getElem?_modify]
  split
  · rw [Option.map_map]
    exact congrArg (Option.map · registry.blocks[id]?)
      (funext fun block => Block.blank_append block text origins)
  · rfl

@[simp] theorem size_made (registry : Registry) : registry.made.size = registry.blocks.size :=
  Array.size_map

end Registry

namespace Block

variable {blocks : Array Block} {name outputName : String}

theorem IsNewest.lt_size {id : Nat} (h : IsNewest blocks name id) : id < blocks.size := by
  obtain ⟨⟨block, hblock, -⟩, -⟩ := h
  exact (Array.getElem?_eq_some_iff.mp hblock).1

theorem exists_isNewest {block : Block} (hblock : block ∈ blocks) (hnamed : block.IsNamed name) :
    ∃ id, IsNewest blocks name id := by
  classical
  let stands (id : Nat) : Prop := ∃ block, blocks[id]? = some block ∧ block.IsNamed name
  have hbound : ∀ (id : Nat) (block : Block), blocks[id]? = some block → id ≤ blocks.size :=
    fun id block hid => Nat.le_of_lt (Array.getElem?_eq_some_iff.mp hid).1
  obtain ⟨id, hid⟩ := Array.mem_iff_getElem?.mp hblock
  have hstands : stands id := ⟨block, hid, hnamed⟩
  refine ⟨Nat.findGreatest stands blocks.size, ?_, ?_⟩
  · exact Nat.findGreatest_spec (hbound id block hid) hstands
  · intro later twin hlater htwin htwinNamed
    exact Nat.findGreatest_is_greatest hlater (hbound later twin htwin)
      ⟨twin, htwin, htwinNamed⟩

theorem isNewest_push_self (blocks : Array Block) (name outputName : String) (id : Nat) :
    IsNewest (blocks.push (.named name outputName)) name id ↔ id = blocks.size := by
  constructor
  · intro hnewest
    have hlt := hnewest.lt_size
    rw [Array.size_push] at hlt
    by_contra hne
    exact hnewest.2 blocks.size _ (by omega) Array.getElem?_push_size ⟨rfl, rfl⟩
  · rintro rfl
    refine ⟨⟨_, Array.getElem?_push_size, rfl, rfl⟩, ?_⟩
    intro later block hlater hblock
    have hlt := (Array.getElem?_eq_some_iff.mp hblock).1
    rw [Array.size_push] at hlt
    omega

theorem isNewest_push_of_ne {other : String} (hname : other ≠ name) (id : Nat) :
    IsNewest (blocks.push (.named name outputName)) other id ↔ IsNewest blocks other id := by
  have hold : ∀ (id : Nat) (block : Block), block.IsNamed other →
      ((blocks.push (.named name outputName))[id]? = some block ↔ blocks[id]? = some block) := by
    intro id block hnamed
    rw [Array.getElem?_push]
    split
    · rename_i hid
      subst hid
      rw [Array.getElem?_eq_none (Nat.le_refl _)]
      refine ⟨fun h => ?_, fun h => by cases h⟩
      cases h
      exact absurd hnamed.2.symm hname
    · rfl
  constructor
  · rintro ⟨⟨block, hblock, hnamed⟩, hlater⟩
    refine ⟨⟨block, (hold id block hnamed).mp hblock, hnamed⟩, ?_⟩
    intro later twin hless htwin htwinNamed
    exact hlater later twin hless ((hold later twin htwinNamed).mpr htwin) htwinNamed
  · rintro ⟨⟨block, hblock, hnamed⟩, hlater⟩
    refine ⟨⟨block, (hold id block hnamed).mpr hblock, hnamed⟩, ?_⟩
    intro later twin hless htwin htwinNamed
    exact hlater later twin hless ((hold later twin htwinNamed).mp htwin) htwinNamed

end Block

namespace Registry

variable {registry : Registry} {documentName name outputName : String}

theorem sound_new (documentName : String) (policy : ReopenPolicy) :
    (new documentName policy).Sound documentName := by
  have hblock : ∀ (id : Nat) (block : Block),
      (new documentName policy).made[id]? = some block →
        id = 0 ∧ block.isDocument = true := by
    intro id block hid
    rw [made_new] at hid
    obtain ⟨hlt, rfl⟩ := Array.getElem?_eq_some_iff.mp hid
    obtain rfl : id = 0 := Nat.lt_one_iff.mp hlt
    exact ⟨rfl, rfl⟩
  have hnone : ∀ (id : Nat) (block : Block),
      (new documentName policy).made[id]? = some block → block.isDocument ≠ false := by
    intro id block hid
    rw [(hblock id block hid).2]
    exact Bool.noConfusion
  refine ⟨⟨[], rfl, by simp⟩, by rw [made_new]; rfl, ?_, ?_, ?_, ?_⟩
  · intro id block hid
    simp [hblock id block hid]
  · intro name id
    constructor
    · intro hlookup
      cases hlookup
    · rintro ⟨⟨block, hid, hnamed⟩, -⟩
      exact absurd hnamed.1 (hnone id block hid)
  · intro name
    constructor
    · intro hmem
      cases hmem
    · rintro ⟨block, hmem, hnamed, -⟩
      obtain ⟨id, hid⟩ := Array.mem_iff_getElem?.mp hmem
      exact absurd hnamed (hnone id block hid)
  · intro _ id block hid hnamed
    exact absurd hnamed (hnone id block hid)

namespace Sound

theorem size_pos (h : registry.Sound documentName) : 0 < registry.blocks.size := by
  rw [← size_made]
  exact (Array.getElem?_eq_some_iff.mp h.document).1

theorem lookup_isSome_iff (h : registry.Sound documentName) :
    (registry.latest.lookup name).isSome = true ↔
      ∃ block ∈ registry.made, block.IsNamed name := by
  rw [Option.isSome_iff_exists]
  constructor
  · rintro ⟨id, hlookup⟩
    obtain ⟨⟨block, hblock, hnamed⟩, -⟩ := (h.latest name id).mp hlookup
    exact ⟨block, Array.mem_of_getElem? hblock, hnamed⟩
  · rintro ⟨block, hblock, hnamed⟩
    obtain ⟨id, hnewest⟩ := Block.exists_isNewest hblock hnamed
    exact ⟨id, (h.latest name id).mpr hnewest⟩

theorem lookup_bounds (h : registry.Sound documentName) {id : Nat}
    (hlookup : registry.latest.lookup name = some id) : 0 < id ∧ id < registry.blocks.size := by
  have hnewest := (h.latest name id).mp hlookup
  have hlt := hnewest.lt_size
  rw [size_made] at hlt
  refine ⟨?_, hlt⟩
  obtain ⟨⟨block, hblock, hnamed, -⟩, -⟩ := hnewest
  by_contra hzero
  have hdocument := (h.isDocument_iff id block hblock).mpr (by omega)
  rw [hnamed] at hdocument
  cases hdocument

theorem create (h : registry.Sound documentName)
    (hfresh : registry.policy = .append →
      outputName = name ∧ registry.latest.lookup name = none) :
    (registry.create name outputName).1.Sound documentName := by
  have hsize := h.size_pos
  refine ⟨?_, ?_, ?_, ?_, ?_, ?_⟩
  · obtain ⟨opened, hstack, hopened⟩ := h.stack
    refine ⟨opened, hstack, fun entry hentry => ⟨(hopened entry hentry).1, ?_⟩⟩
    change entry.id < (registry.blocks.push _).size
    rw [Array.size_push]
    exact Nat.lt_succ_of_lt (hopened entry hentry).2
  · rw [made_create, Array.getElem?_push, size_made, if_neg (by omega)]
    exact h.document
  · intro id block hblock
    rw [made_create, Array.getElem?_push, size_made] at hblock
    split at hblock
    · cases hblock
      simp only [Block.named, Bool.false_eq_true, false_iff]
      omega
    · exact h.isDocument_iff id block hblock
  · intro other id
    rw [made_create]
    change List.lookup other ((name, registry.blocks.size) :: registry.latest) = some id ↔ _
    by_cases hname : other = name
    · subst hname
      rw [List.lookup_cons_self, Block.isNewest_push_self, size_made, Option.some.injEq,
        eq_comm]
    · have hne : (other == name) = false := by simpa using hname
      rw [List.lookup_cons, hne, Block.isNewest_push_of_ne hname]
      exact h.latest other id
  · intro other
    change other ∈ outputName :: registry.outputNames ↔ _
    rw [List.mem_cons, h.outputNames, made_create]
    simp only [Array.mem_push]
    constructor
    · rintro (rfl | ⟨block, hblock, hnamed⟩)
      · exact ⟨_, .inr rfl, rfl, rfl⟩
      · exact ⟨block, .inl hblock, hnamed⟩
    · rintro ⟨block, hblock | rfl, hnamed⟩
      · exact .inr ⟨block, hblock, hnamed⟩
      · exact .inl hnamed.2.symm
  · intro hpolicy id block hblock hnamed
    obtain ⟨hsame, hnone⟩ := hfresh hpolicy
    have hnew : ∀ block ∈ registry.made, ¬ block.IsNamed name := by
      intro block hblock hnamed
      have hsome := h.lookup_isSome_iff.mpr ⟨block, hblock, hnamed⟩
      rw [hnone] at hsome
      cases hsome
    rw [made_create] at hblock ⊢
    rw [Array.getElem?_push, size_made] at hblock
    split at hblock
    · rename_i hid
      cases hblock
      refine ⟨hsame, ?_⟩
      intro other twin htwin htwinNamed
      rw [Array.getElem?_push, size_made] at htwin
      split at htwin
      · rename_i hother
        rw [hid, hother]
      · exact absurd htwinNamed (hnew twin (Array.mem_of_getElem? htwin))
    · obtain ⟨houtput, hunique⟩ := h.unique hpolicy id block hblock hnamed
      refine ⟨houtput, ?_⟩
      intro other twin htwin htwinNamed
      rw [Array.getElem?_push, size_made] at htwin
      split at htwin
      · cases htwin
        exact absurd ⟨hnamed, htwinNamed.2.symm⟩
          (hnew block (Array.mem_of_getElem? hblock))
      · exact hunique other twin htwin htwinNamed

theorem push (h : registry.Sound documentName) {id : Nat} (hpos : 0 < id)
    (hlt : id < registry.blocks.size) (openedAt : Span) :
    Sound { registry with stack := ⟨id, openedAt⟩ :: registry.stack } documentName := by
  refine ⟨?_, h.document, h.isDocument_iff, h.latest, h.outputNames, h.unique⟩
  obtain ⟨opened, hstack, hopened⟩ := h.stack
  refine ⟨⟨id, openedAt⟩ :: opened, ?_, ?_⟩
  · rw [hstack]
    rfl
  · exact List.forall_mem_cons.mpr ⟨⟨hpos, hlt⟩, hopened⟩

theorem getOrCreate (h : registry.Sound documentName) (name : String) :
    (registry.getOrCreate name).1.Sound documentName ∧
      0 < (registry.getOrCreate name).2 ∧
      (registry.getOrCreate name).2 < (registry.getOrCreate name).1.blocks.size := by
  unfold Registry.getOrCreate
  cases hlookup : registry.latest.lookup name with
  | some id => exact ⟨h, h.lookup_bounds hlookup⟩
  | none => exact ⟨h.create fun _ => ⟨rfl, hlookup⟩, h.size_pos, by simp [Registry.create]⟩

theorem openBlock (h : registry.Sound documentName) (name : String) (openedAt : Span) :
    (registry.openBlock name openedAt).1.Sound documentName := by
  unfold Registry.openBlock
  by_cases hnew : registry.policy = .separate ∧ (registry.latest.lookup name).isSome
  · rw [if_pos hnew]
    refine (h.create fun hpolicy => ?_).push h.size_pos (by simp [Registry.create]) openedAt
    rw [hnew.1] at hpolicy
    cases hpolicy
  · rw [if_neg hnew]
    obtain ⟨hsound, hpos, hlt⟩ := h.getOrCreate name
    exact hsound.push hpos hlt openedAt

theorem isDocument_active (h : registry.Sound documentName)
    (hstack : registry.stack = [⟨0, ⟨0, 0⟩⟩]) : registry.active.isDocument = true := by
  obtain ⟨block, hblock, hblank⟩ :=
    Option.map_eq_some_iff.mp (Array.getElem?_map.symm.trans h.document)
  have hactive : registry.active = block := by
    rw [active, activeId, hstack, Registry.block, Array.getD_eq_getD_getElem?]
    exact congrArg (·.getD default) hblock
  rw [hactive]
  exact congrArg Block.isDocument hblank

theorem closeBlock (h : registry.Sound documentName) {closedAt : Span}
    {closed : Registry × Nat} (hclosed : registry.closeBlock name closedAt = .ok closed) :
    closed.1.Sound documentName := by
  unfold Registry.closeBlock at hclosed
  dsimp only at hclosed
  split at hclosed
  · cases hclosed
  · rename_i hnamed
    split at hclosed
    · cases hclosed
    · cases hclosed
      refine ⟨?_, h.document, h.isDocument_iff, h.latest, h.outputNames, h.unique⟩
      obtain ⟨opened, hstack, hopened⟩ := h.stack
      cases opened with
      | nil => exact absurd (h.isDocument_active hstack) hnamed
      | cons entry opened =>
          refine ⟨opened, ?_, (List.forall_mem_cons.mp hopened).2⟩
          rw [hstack]
          rfl

theorem appendActive (h : registry.Sound documentName) (text : String)
    (origins : List (Nat × SourcePosition)) :
    (registry.appendActive text origins).Sound documentName := by
  have hmade := made_appendActive registry text origins
  have hsize : (registry.appendActive text origins).blocks.size = registry.blocks.size :=
    Array.size_modify
  constructor
  · rw [hsize]
    exact h.stack
  · rw [hmade]
    exact h.document
  · rw [hmade]
    exact h.isDocument_iff
  · rw [hmade]
    exact h.latest
  · rw [hmade]
    exact h.outputNames
  · rw [hmade]
    exact h.unique

theorem perform (h : registry.Sound documentName) (operation : Operation) :
    (registry.perform operation).Sound documentName := by
  cases operation with
  | getOrCreate name => exact (h.getOrCreate name).1
  | openBlock name openedAt => exact h.openBlock name openedAt
  | closeBlock name closedAt =>
      unfold Registry.perform
      dsimp only
      split
      · rename_i closed id hclosed
        exact h.closeBlock hclosed
      · exact h
  | append text origins => exact h.appendActive text origins

theorem run (h : registry.Sound documentName) (operations : List Operation) :
    (registry.run operations).Sound documentName := by
  induction operations generalizing registry with
  | nil => exact h
  | cons operation operations ih => exact ih (h.perform operation)

end Sound

/-! What operations leave of the blocks there are. -/

theorem Keeps.of_same {before after : Registry} {operation : Operation}
    (hpolicy : after.policy = before.policy)
    (h : ∀ (id : Nat) (block : Block), before.blocks[id]? = some block →
      after.blocks[id]? = some block) :
    before.Keeps operation after :=
  ⟨hpolicy, fun id block hblock => ⟨block, h id block hblock, rfl, .inl rfl⟩⟩

theorem getElem?_create {id : Nat} {block : Block} (h : registry.blocks[id]? = some block)
    (name outputName : String) :
    (registry.create name outputName).1.blocks[id]? = some block := by
  have hlt := (Array.getElem?_eq_some_iff.mp h).1
  rw [create, Array.getElem?_push, if_neg (by omega), h]

theorem keeps_getOrCreate (registry : Registry) (name : String) :
    (registry.getOrCreate name).1.policy = registry.policy ∧
      ∀ (id : Nat) (block : Block), registry.blocks[id]? = some block →
        (registry.getOrCreate name).1.blocks[id]? = some block := by
  unfold getOrCreate
  cases registry.latest.lookup name with
  | some id => exact ⟨rfl, fun _ _ hblock => hblock⟩
  | none => exact ⟨rfl, fun _ _ hblock => getElem?_create hblock name name⟩

theorem keeps_openBlock (registry : Registry) (name : String) (openedAt : Span) :
    registry.Keeps (.openBlock name openedAt) (registry.openBlock name openedAt).1 := by
  unfold openBlock
  by_cases hnew : registry.policy = .separate ∧ (registry.latest.lookup name).isSome
  · rw [if_pos hnew]
    exact .of_same rfl fun _ _ hblock => getElem?_create hblock name _
  · rw [if_neg hnew]
    obtain ⟨hpolicy, hblocks⟩ := registry.keeps_getOrCreate name
    exact .of_same hpolicy hblocks

theorem keeps_appendActive (registry : Registry) (text : String)
    (origins : List (Nat × SourcePosition)) :
    registry.Keeps (.append text origins) (registry.appendActive text origins) := by
  refine ⟨rfl, fun id block hblock => ?_⟩
  rw [appendActive, Array.getElem?_modify, hblock]
  by_cases hid : registry.activeId = id
  · refine ⟨block.append text origins, if_pos hid, Block.blank_append block text origins, ?_⟩
    exact .inr ⟨hid.symm, text, origins, rfl, rfl⟩
  · exact ⟨block, if_neg hid, rfl, .inl rfl⟩

theorem keeps_perform (registry : Registry) (operation : Operation) :
    registry.Keeps operation (registry.perform operation) := by
  cases operation with
  | getOrCreate name =>
      obtain ⟨hpolicy, hblocks⟩ := registry.keeps_getOrCreate name
      exact .of_same hpolicy hblocks
  | openBlock name openedAt => exact registry.keeps_openBlock name openedAt
  | closeBlock name closedAt =>
      unfold perform closeBlock
      dsimp only
      split_ifs
      · exact .of_same rfl fun _ _ hblock => hblock
      · exact .of_same rfl fun _ _ hblock => hblock
      · exact .of_same rfl fun _ _ hblock => hblock
  | append text origins => exact registry.keeps_appendActive text origins

theorem policy_run (registry : Registry) (operations : List Operation) :
    (registry.run operations).policy = registry.policy := by
  induction operations generalizing registry with
  | nil => rfl
  | cons operation operations ih =>
      exact (ih (registry.perform operation)).trans (registry.keeps_perform operation).policy

theorem exists_kept_run (operations : List Operation) {id : Nat} {block : Block}
    (h : registry.blocks[id]? = some block) :
    ∃ kept, (registry.run operations).blocks[id]? = some kept ∧ kept.blank = block.blank := by
  induction operations generalizing registry block with
  | nil => exact ⟨block, h, rfl⟩
  | cons operation operations ih =>
      obtain ⟨next, hnext, hsame, -⟩ := (registry.keeps_perform operation).blocks id block h
      obtain ⟨kept, hkept, hblank⟩ := ih hnext
      exact ⟨kept, hkept, hblank.trans hsame⟩

/-! The names that there are blocks for. -/

theorem exists_isNamed_create (other : String) :
    (∃ block ∈ (registry.create name outputName).1.made, block.IsNamed other) ↔
      (∃ block ∈ registry.made, block.IsNamed other) ∨ name = other := by
  rw [made_create]
  simp only [Array.mem_push]
  constructor
  · rintro ⟨block, hblock | rfl, hnamed⟩
    · exact .inl ⟨block, hblock, hnamed⟩
    · exact .inr hnamed.2
  · rintro (⟨block, hblock, hnamed⟩ | rfl)
    · exact ⟨block, .inl hblock, hnamed⟩
    · exact ⟨_, .inr rfl, rfl, rfl⟩

theorem Sound.exists_isNamed_getOrCreate (h : registry.Sound documentName) (other : String) :
    (∃ block ∈ (registry.getOrCreate name).1.made, block.IsNamed other) ↔
      (∃ block ∈ registry.made, block.IsNamed other) ∨ name = other := by
  unfold Registry.getOrCreate
  cases hlookup : registry.latest.lookup name with
  | some id =>
      have hsome := h.lookup_isSome_iff.mp (by rw [hlookup]; rfl)
      refine ⟨.inl, ?_⟩
      rintro (hnamed | rfl)
      · exact hnamed
      · exact hsome
  | none => exact exists_isNamed_create other

theorem Sound.exists_isNamed_perform (h : registry.Sound documentName) (operation : Operation)
    (other : String) :
    (∃ block ∈ (registry.perform operation).made, block.IsNamed other) ↔
      (∃ block ∈ registry.made, block.IsNamed other) ∨ operation.name? = some other := by
  cases operation with
  | getOrCreate name =>
      rw [Operation.name?, Option.some.injEq]
      exact h.exists_isNamed_getOrCreate other
  | openBlock name openedAt =>
      rw [Operation.name?, Option.some.injEq]
      unfold Registry.perform Registry.openBlock
      dsimp only
      by_cases hnew : registry.policy = .separate ∧ (registry.latest.lookup name).isSome
      · rw [if_pos hnew]
        exact exists_isNamed_create other
      · rw [if_neg hnew]
        exact h.exists_isNamed_getOrCreate other
  | closeBlock name closedAt =>
      have hmade : (registry.perform (.closeBlock name closedAt)).made = registry.made := by
        unfold Registry.perform Registry.closeBlock
        dsimp only
        split_ifs <;> rfl
      simp [hmade, Operation.name?]
  | append text origins =>
      have hmade : (registry.perform (.append text origins)).made = registry.made :=
        made_appendActive registry text origins
      simp [hmade, Operation.name?]

theorem Sound.exists_isNamed_run (h : registry.Sound documentName)
    (operations : List Operation) (other : String) :
    (∃ block ∈ (registry.run operations).made, block.IsNamed other) ↔
      (∃ block ∈ registry.made, block.IsNamed other) ∨
        ∃ operation ∈ operations, operation.name? = some other := by
  induction operations generalizing registry with
  | nil => simp [Registry.run]
  | cons operation operations ih =>
      rw [List.exists_mem_cons_iff, ← or_assoc, ← h.exists_isNamed_perform operation other]
      exact ih (h.perform operation)

/-- After any operations the tables and the stack are sound, and there are blocks for just
the names that were asked for. Further operations leave every block in its place under its
names, and change only the active one, by what is appended to it. -/
theorem sound_run (documentName : String) (policy : ReopenPolicy)
    (operations : List Operation) :
    let registry := (new documentName policy).run operations
    registry.Sound documentName ∧ registry.policy = policy ∧
      (∀ name, (registry.latest.lookup name).isSome = true ↔
        ∃ operation ∈ operations, operation.name? = some name) ∧
      (∀ operation, registry.Keeps operation (registry.perform operation)) ∧
      ∀ (further : List Operation) (id : Nat) (block : Block),
        registry.blocks[id]? = some block →
          ∃ kept, (registry.run further).blocks[id]? = some kept ∧
            kept.blank = block.blank := by
  intro registry
  have hnew := sound_new documentName policy
  have hsound : registry.Sound documentName := hnew.run operations
  have hunnamed (name : String) :
      ¬ ∃ block ∈ (new documentName policy).made, block.IsNamed name := by
    rintro ⟨block, hblock, hnamed, -⟩
    rw [made_new, List.mem_toArray, List.mem_singleton] at hblock
    rw [hblock] at hnamed
    cases hnamed
  refine ⟨hsound, policy_run _ operations, ?_, registry.keeps_perform, ?_⟩
  · intro name
    rw [hsound.lookup_isSome_iff, hnew.exists_isNamed_run operations name,
      or_iff_right (hunnamed name)]
  · intro further id block hblock
    exact exists_kept_run further hblock

theorem sound_run_reopened :
    let operations : List Operation := [.openBlock "a.css" ⟨0, 19⟩, .append ".x\x7b\x7d" [],
      .closeBlock "a.css" ⟨23, 40⟩, .openBlock "b.css" ⟨41, 60⟩]
    let registry := (new "main.css" .append).run operations
    let block := (Block.named "a.css" "a.css").append ".x\x7b\x7d" []
    registry.blocks[1]? = some block ∧ registry.latest.lookup "a.css" = some 1 ∧
      (∀ (other : Nat) (twin : Block), registry.made[other]? = some twin →
        twin.IsNamed "a.css" → other = 1) ∧
      ∃ kept, (registry.run [.openBlock "a.css" ⟨61, 80⟩, .append ".y\x7b\x7d" []]).blocks[1]? =
        some kept ∧ kept.blank = block.blank := by
  intro operations registry block
  have hblock : registry.blocks[1]? = some block := by decide
  have hmade : registry.made[1]? = some block.blank := by
    rw [made, Array.getElem?_map, hblock]
    rfl
  obtain ⟨hsound, hpolicy, -, -, hkept⟩ := sound_run "main.css" .append operations
  have hunique := (hsound.unique hpolicy 1 block.blank hmade rfl).2
  refine ⟨hblock, ?_, hunique, hkept _ 1 block hblock⟩
  refine (hsound.latest "a.css" 1).mpr ⟨⟨block.blank, hmade, rfl, rfl⟩, ?_⟩
  intro later twin hlater htwin hnamed
  exact absurd (hunique later twin htwin hnamed) (Nat.ne_of_gt hlater)

end Registry

end StyleSplit
