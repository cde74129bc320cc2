import StyleSplit.Proofs.Block.Append
import StyleSplit.Proofs.Routing.Nesting

/-! The registry of a run does what the stack machine says, and each block holds
the rules that the machine routes to it. -/

namespace StyleSplit

theorem lookup_reverse_zipIdx {names : List String} (hnodup : names.Nodup)
    (name : String) :
    (names.zipIdx 1).reverse.lookup name = (names.idxOf? name).map (· + 1) := by
  induction names using List.reverseRecOn with
  | nil => rfl
  | append_singleton names last ih =>
      rw [List.nodup_append] at hnodup
      obtain ⟨hnames, -, hdisjoint⟩ := hnodup
      have hlast : last ∉ names := fun hmem =>
        hdisjoint last hmem last (List.mem_singleton.mpr rfl) rfl
      rw [List.zipIdx_append, List.reverse_append, List.lookup_append, ih hnames]
      unfold List.idxOf?
      rw [List.findIdx?_append]
      by_cases hname : last = name
      · subst hname
        have hnone : names.findIdx? (· == last) = none := List.idxOf?_eq_none_iff.mpr hlast
        simp [hnone, Nat.add_comm]
      · have hne : (name == last) = false := by simpa using Ne.symm hname
        simp [List.lookup, hne, hname]

namespace Registry

variable {registry : Registry} {policy : ReopenPolicy} {documentName : String}
  {nesting : Nesting}

/-- The registry has the blocks and the stack that the machine has. -/
structure Follows (registry : Registry) (policy : ReopenPolicy) (documentName : String)
    (nesting : Nesting) : Prop where
  policy_eq : registry.policy = policy
  labels : registry.blocks.toList.map (fun block => (block.identity, block.isDocument)) =
    (documentName, true) :: nesting.names.map (·, false)
  latest : registry.latest = (nesting.names.zipIdx 1).reverse
  stack : registry.stack =
    nesting.stack.map (fun level => ⟨level.id, level.openedAt⟩) ++ [⟨0, ⟨0, 0⟩⟩]
  named : ∀ level ∈ nesting.stack,
    ∃ index, level.id = index + 1 ∧ nesting.names[index]? = some level.name
  nodup : policy = .append → nesting.names.Nodup

theorem follows_new (documentName : String) (policy : ReopenPolicy) :
    (new documentName policy).Follows policy documentName {} where
  policy_eq := rfl
  labels := rfl
  latest := rfl
  stack := rfl
  named := by simp
  nodup _ := List.nodup_nil

namespace Follows

theorem size_eq (h : registry.Follows policy documentName nesting) :
    registry.blocks.size = nesting.names.length + 1 := by
  have hlength := congrArg List.length h.labels
  simpa using hlength

theorem activeId_eq (h : registry.Follows policy documentName nesting) :
    registry.activeId = nesting.top := by
  rw [activeId, h.stack, Nesting.top]
  cases nesting.stack <;> rfl

theorem top_lt (h : registry.Follows policy documentName nesting) :
    nesting.top < registry.blocks.size := by
  rw [h.size_eq, Nesting.top]
  cases hstack : nesting.stack with
  | nil => exact Nat.succ_pos _
  | cons level stack =>
      obtain ⟨index, hid, hname⟩ := h.named level (by simp [hstack])
      obtain ⟨hlt, -⟩ := List.getElem?_eq_some_iff.mp hname
      change level.id < _
      omega

theorem named_append (h : registry.Follows policy documentName nesting)
    (names : List String) : ∀ level ∈ nesting.stack,
      ∃ index, level.id = index + 1 ∧ (nesting.names ++ names)[index]? = some level.name := by
  intro level hlevel
  obtain ⟨index, hid, hname⟩ := h.named level hlevel
  obtain ⟨hlt, -⟩ := List.getElem?_eq_some_iff.mp hname
  exact ⟨index, hid, by rw [List.getElem?_append_left hlt, hname]⟩

theorem create (h : registry.Follows policy documentName nesting) (name : String)
    (outputName : String) (openedAt : Span)
    (hfresh : policy = .append → name ∉ nesting.names) :
    Follows { (registry.create name outputName).1 with
        stack := ⟨registry.blocks.size, openedAt⟩ :: registry.stack } policy documentName
      ⟨nesting.names ++ [name],
        ⟨nesting.names.length + 1, name, openedAt⟩ :: nesting.stack⟩ where
  policy_eq := h.policy_eq
  labels := by
    simp [Registry.create, h.labels, Block.named]
  latest := by
    simp [Registry.create, h.latest, h.size_eq, List.zipIdx_append, Nat.add_comm]
  stack := by
    simp [h.stack, h.size_eq]
  named := by
    intro level hlevel
    rcases List.mem_cons.mp hlevel with rfl | hlevel
    · exact ⟨nesting.names.length, rfl, by simp⟩
    · exact h.named_append [name] level hlevel
  nodup := by
    intro hpolicy
    have hnew := hfresh hpolicy
    rw [List.nodup_append]
    refine ⟨h.nodup hpolicy, by simp, ?_⟩
    rintro other hother _ hname rfl
    rw [List.mem_singleton] at hname
    exact hnew (hname ▸ hother)

theorem openBlock (h : registry.Follows policy documentName nesting) (name : String)
    (openedAt : Span) :
    (registry.openBlock name openedAt).1.Follows policy documentName
      (nesting.opened policy name openedAt) := by
  cases policy with
  | separate =>
      have hmade := fun outputName => h.create name outputName openedAt (by simp)
      unfold Registry.openBlock
      rw [h.policy_eq]
      cases hlookup : registry.latest.lookup name with
      | some id =>
          rw [if_pos ⟨rfl, rfl⟩]
          exact hmade _
      | none =>
          rw [if_neg (by simp), getOrCreate, hlookup]
          exact hmade _
  | append =>
      have hlatest : registry.latest.lookup name =
          (nesting.names.idxOf? name).map (· + 1) := by
        rw [h.latest, lookup_reverse_zipIdx (h.nodup rfl)]
      unfold Registry.openBlock Nesting.opened
      rw [h.policy_eq, if_neg (by simp), getOrCreate, hlatest]
      cases hindex : nesting.names.idxOf? name with
      | some index =>
          obtain ⟨hlt, hname, -⟩ := List.idxOf?_eq_some_iff.mp hindex
          refine ⟨h.policy_eq, h.labels, h.latest, ?_, ?_, h.nodup⟩
          · simp [h.stack]
          · intro level hlevel
            rcases List.mem_cons.mp hlevel with rfl | hlevel
            · exact ⟨index, rfl, List.getElem?_eq_some_iff.mpr ⟨hlt, hname⟩⟩
            · exact h.named level hlevel
      | none => exact h.create name _ openedAt fun _ => List.idxOf?_eq_none_iff.mp hindex

theorem label_of_getElem? (h : registry.Follows policy documentName nesting) {index : Nat}
    {name : String} (hname : nesting.names[index]? = some name) :
    (registry.block (index + 1)).identity = name ∧
      (registry.block (index + 1)).isDocument = false := by
  have hlabel := congrArg (·[index + 1]?) h.labels
  rw [List.getElem?_cons_succ, List.getElem?_map, List.getElem?_map, hname,
    Array.getElem?_toList] at hlabel
  obtain ⟨block, hblock, heq⟩ := Option.map_eq_some_iff.mp hlabel
  rw [Registry.block, Array.getD_eq_getD_getElem?, hblock]
  simpa using heq

theorem label_document (h : registry.Follows policy documentName nesting) :
    (registry.block 0).isDocument = true := by
  have hlabel := congrArg (·[0]?) h.labels
  rw [List.getElem?_cons_zero, List.getElem?_map, Array.getElem?_toList] at hlabel
  obtain ⟨block, hblock, heq⟩ := Option.map_eq_some_iff.mp hlabel
  rw [Registry.block, Array.getD_eq_getD_getElem?, hblock]
  simpa using (Prod.mk.inj heq).2

theorem closeBlock (h : registry.Follows policy documentName nesting) (name : String)
    (closedAt : Span) :
    match registry.closeBlock name closedAt with
    | .ok (closed, _) =>
        closed.Follows policy documentName (nesting.closed name) ∧
          closed.blocks = registry.blocks
    | .error _ => nesting.closed name = nesting := by
  unfold Registry.closeBlock Nesting.closed active
  rw [h.activeId_eq, Nesting.top]
  cases hstack : nesting.stack with
  | nil =>
      simp [h.label_document]
  | cons level stack =>
      obtain ⟨index, hid, hname⟩ := h.named level (by simp [hstack])
      obtain ⟨hidentity, hnamed⟩ := h.label_of_getElem? hname
      dsimp only [List.head?_cons, Option.elim_some]
      rw [hid, hidentity, hnamed, if_neg (by simp)]
      by_cases hsame : level.name = name
      · rw [if_neg (by simpa using hsame), if_pos hsame]
        refine ⟨⟨h.policy_eq, h.labels, h.latest, ?_, ?_, h.nodup⟩, rfl⟩
        · simp [h.stack, hstack]
        · intro other hother
          exact h.named other (by simp [hstack, hother])
      · rw [if_pos hsame, if_neg hsame]

theorem appendActive (h : registry.Follows policy documentName nesting) (text : String)
    (origins : List (Nat × SourcePosition)) :
    (registry.appendActive text origins).Follows policy documentName nesting := by
  refine ⟨h.policy_eq, ?_, h.latest, h.stack, h.named, h.nodup⟩
  have hlabels : ∀ blocks : List Block, ∀ id,
      (blocks.modify id fun block => block.append text origins).map
        (fun block => (block.identity, block.isDocument)) =
      blocks.map fun block => (block.identity, block.isDocument) := by
    intro blocks id
    apply List.ext_getElem?
    intro place
    rw [List.getElem?_map, List.getElem?_map, List.getElem?_modify]
    split
    · cases blocks[place]? with
      | none => rfl
      | some block => exact congrArg some (Block.label_append block text origins)
    · cases blocks[place]? <;> rfl
  rw [Registry.appendActive, Array.toList_modify, hlabels, h.labels]

end Follows

def Holds (registry : Registry) (text : String)
    (origins : Rule → List (Nat × SourcePosition)) (routed : List (Nat × Rule)) : Prop :=
  ∀ (id : Nat) (block : Block), registry.blocks[id]? = some block →
    block = block.blank.appendRules text origins
      ((routed.filter (·.1 == id)).map (·.2))

variable {text : String} {origins : Rule → List (Nat × SourcePosition)}
  {routed : List (Nat × Rule)}

theorem holds_new (documentName : String) (policy : ReopenPolicy) :
    (new documentName policy).Holds text origins [] := by
  intro id block hblock
  obtain ⟨hlt, rfl⟩ := Array.getElem?_eq_some_iff.mp hblock
  have hid : id = 0 := by
    change id < 1 at hlt
    omega
  subst hid
  rfl

theorem Holds.create (h : registry.Holds text origins routed)
    (hrouted : ∀ entry ∈ routed, entry.1 < registry.blocks.size) (name outputName : String) :
    (registry.create name outputName).1.Holds text origins routed := by
  intro id block hblock
  change (registry.blocks.push _)[id]? = some block at hblock
  rw [Array.getElem?_push] at hblock
  split at hblock
  · rename_i hid
    subst hid
    cases hblock
    have hnone : routed.filter (·.1 == registry.blocks.size) = [] := by
      rw [List.filter_eq_nil_iff]
      intro entry hentry
      have hlt := hrouted entry hentry
      simp only [beq_iff_eq]
      omega
    rw [hnone]
    rfl
  · exact h id block hblock

theorem Holds.openBlock (h : registry.Holds text origins routed)
    (hrouted : ∀ entry ∈ routed, entry.1 < registry.blocks.size) (name : String)
    (openedAt : Span) :
    (registry.openBlock name openedAt).1.Holds text origins routed := by
  unfold Registry.openBlock
  by_cases hnew : registry.policy = .separate ∧ (registry.latest.lookup name).isSome
  · rw [if_pos hnew]
    exact h.create hrouted name _
  · rw [if_neg hnew, getOrCreate]
    cases registry.latest.lookup name with
    | some id => exact h
    | none => exact h.create hrouted name name

theorem Holds.appendActive (h : registry.Holds text origins routed) (rule : Rule) :
    (registry.appendActive (rule.text text) (origins rule)).Holds text origins
      (routed ++ [(registry.activeId, rule)]) := by
  intro id block hblock
  change (registry.blocks.modify _ _)[id]? = some block at hblock
  rw [Array.getElem?_modify] at hblock
  rw [List.filter_append, List.map_append]
  split at hblock
  · rename_i hid
    subst hid
    obtain ⟨old, hold, rfl⟩ := Option.map_eq_some_iff.mp hblock
    have hheld := h _ old hold
    rw [Block.blank_append]
    simp only [List.filter_cons, beq_self_eq_true, if_true, List.filter_nil,
      List.map_cons, List.map_nil]
    rw [Block.appendRules_concat, ← hheld]
  · rename_i hid
    have hother : ([(registry.activeId, rule)].filter (·.1 == id)) = [] := by
      simpa using hid
    rw [hother, List.map_nil, List.append_nil]
    exact h id block hblock

end Registry

end StyleSplit
