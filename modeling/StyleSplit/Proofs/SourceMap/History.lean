import StyleSplit.Proofs.Block.Append
import StyleSplit.Proofs.SourceMap.Builder

/-! What a builder holds after any calls, told by the calls alone: the sources by their
first use, the text that each was given last since then, and the mappings as they were
added. -/

namespace StyleSplit.MapBuilder

inductive Call where
  | addMapping (mapping : Mapping)
  | setContent (source : String) (content : Option String)
  | setFile (file : Option String)

namespace Call

def mapping? : Call → Option Mapping
  | addMapping mapping => some mapping
  | setContent _ _ | setFile _ => none

def uses (source : String) : Call → Bool
  | addMapping mapping => mapping.origin.source == source
  | setContent _ _ | setFile _ => false

def content? (source : String) : Call → Option (Option String)
  | setContent name content => if name = source then some content else none
  | addMapping _ | setFile _ => none

def file? : Call → Option (Option String)
  | setFile file => some file
  | addMapping _ | setContent _ _ => none

end Call

def perform (builder : MapBuilder) : Call → MapBuilder
  | .addMapping mapping =>
      builder.addMapping mapping.generated mapping.origin.source mapping.origin.position
  | .setContent source content => builder.setContent source content
  | .setFile file => builder.setFile file

def run (builder : MapBuilder) (calls : List Call) : MapBuilder :=
  calls.foldl perform builder

def added (calls : List Call) : List Mapping :=
  calls.filterMap Call.mapping?

/-- The sources of these mappings, each where it is first used. -/
def used (calls : List Call) : List String :=
  ((added calls).map (·.origin.source)).eraseDups

/-- The text that a source was last given since its first use. -/
def lastContent (calls : List Call) (source : String) : Option String :=
  (((calls.dropWhile fun call => !call.uses source).filterMap
    (Call.content? source)).getLast?).join

def lastFile (file : Option String) (calls : List Call) : Option String :=
  (calls.filterMap Call.file?).getLast?.getD file

def Entry.Stores (names : List String) (entry : Entry) (mapping : Mapping) : Prop :=
  entry.generated = mapping.generated ∧ names[entry.source]? = some mapping.origin.source ∧
    entry.origin = mapping.origin.position

structure Recounts (builder : MapBuilder) (file : Option String) (calls : List Call) :
    Prop where
  file_eq : builder.file = lastFile file calls
  sources_eq : builder.sources.toList =
    (used calls).map fun source => (source, lastContent calls source)
  entries : List.Forall₂ (Entry.Stores (used calls)) builder.entries.toList (added calls)

variable {builder : MapBuilder} {file : Option String} {calls : List Call} {source : String}

theorem run_concat (builder : MapBuilder) (calls : List Call) (call : Call) :
    builder.run (calls ++ [call]) = (builder.run calls).perform call :=
  List.foldl_concat ..

theorem Call.uses_iff (source : String) (call : Call) :
    call.uses source = true ↔
      ∃ mapping, call.mapping? = some mapping ∧ mapping.origin.source = source := by
  cases call <;> simp [uses, mapping?]

theorem mem_used : source ∈ used calls ↔ ∃ call ∈ calls, call.uses source = true := by
  simp only [used, added, List.mem_eraseDups, List.mem_map, List.mem_filterMap, Call.uses_iff]
  constructor
  · rintro ⟨mapping, ⟨call, hcall, hmapping⟩, hsource⟩
    exact ⟨call, hcall, mapping, hmapping, hsource⟩
  · rintro ⟨call, hcall, mapping, hmapping, hsource⟩
    exact ⟨mapping, ⟨call, hcall, hmapping⟩, hsource⟩

theorem added_concat (calls : List Call) (call : Call) :
    added (calls ++ [call]) = added calls ++ call.mapping?.toList := by
  rw [added, List.filterMap_append, List.filterMap_cons]
  cases call.mapping? <;> rfl

theorem used_concat (calls : List Call) (call : Call) :
    used (calls ++ [call]) =
      match call.mapping? with
      | none => used calls
      | some mapping =>
          if mapping.origin.source ∈ used calls then used calls
          else used calls ++ [mapping.origin.source] := by
  unfold used
  rw [added_concat]
  cases call.mapping? with
  | none => rw [Option.toList_none, List.append_nil]
  | some mapping =>
      rw [Option.toList_some, List.map_append, List.map_singleton, eraseDups_concat]
      simp only [List.mem_eraseDups]

theorem dropWhile_eq_nil (h : source ∉ used calls) :
    calls.dropWhile (fun call => !call.uses source) = [] := by
  rw [List.dropWhile_eq_nil_iff]
  intro call hcall
  rw [Bool.not_eq_true']
  by_contra hused
  exact h (mem_used.mpr ⟨call, hcall, by simpa using hused⟩)

theorem lastContent_append_of_mem (h : source ∈ used calls) (later : List Call) :
    lastContent (calls ++ later) source =
      ((later.filterMap (Call.content? source)).getLast?).elim (lastContent calls source) id := by
  have hne : (calls.dropWhile fun call => !call.uses source).isEmpty = false := by
    obtain ⟨call, hcall, huses⟩ := mem_used.mp h
    rw [List.isEmpty_eq_false_iff, ne_eq, List.dropWhile_eq_nil_iff]
    intro hall
    have hnone := hall call hcall
    rw [huses] at hnone
    cases hnone
  rw [lastContent, List.dropWhile_append, hne, if_neg Bool.false_ne_true,
    List.filterMap_append, List.getLast?_append]
  cases (later.filterMap (Call.content? source)).getLast? <;> rfl

theorem lastContent_concat_of_not_mem (h : source ∉ used calls) (call : Call) :
    lastContent (calls ++ [call]) source = none := by
  rw [lastContent, List.dropWhile_append, dropWhile_eq_nil h, if_pos List.isEmpty_nil]
  cases call with
  | addMapping mapping =>
      rw [List.dropWhile_cons]
      split <;> rfl
  | setContent name content => rfl
  | setFile file => rfl

theorem lastFile_concat (file : Option String) (calls : List Call) (call : Call) :
    lastFile file (calls ++ [call]) = call.file?.getD (lastFile file calls) := by
  rw [lastFile, List.filterMap_append, List.filterMap_cons]
  cases call.file? with
  | none => exact congrArg (·.getLast?.getD file) (List.append_nil _)
  | some last => rw [List.filterMap_nil, List.getLast?_concat, Option.getD_some, Option.getD_some]

theorem file_addMapping (builder : MapBuilder) (generated : Position) (source : String)
    (origin : Position) : (builder.addMapping generated source origin).file = builder.file := by
  unfold addMapping
  split <;> rfl

theorem setContent_of_not_mem (h : source ∉ builder.sourceNames)
    (content : Option String) :
    builder.setContent source content = builder := by
  have hsources : (builder.sources.map fun entry =>
      if entry.1 == source then (entry.1, content) else entry) = builder.sources := by
    conv => rhs; rw [← Array.map_id builder.sources]
    apply Array.map_congr_left
    intro entry hentry
    have hname : entry.1 ≠ source := by
      rintro rfl
      exact h (List.mem_map.mpr ⟨entry, hentry.val, rfl⟩)
    rw [if_neg (by simpa using hname)]
    rfl
  rw [setContent, hsources]

theorem Entry.Stores.of_append {names : List String} {entry : Entry} {mapping : Mapping}
    (h : entry.Stores names mapping) (later : List String) :
    entry.Stores (names ++ later) mapping := by
  obtain ⟨hgenerated, hname, horigin⟩ := h
  have hlt := (List.getElem?_eq_some_iff.mp hname).1
  exact ⟨hgenerated, (List.getElem?_append_left hlt).trans hname, horigin⟩

namespace Recounts

theorem new (file : Option String) : Recounts { file } file [] :=
  ⟨rfl, rfl, .nil⟩

theorem sourceNames_eq (h : builder.Recounts file calls) : builder.sourceNames = used calls := by
  rw [sourceNames, h.sources_eq, List.map_map]
  exact List.map_id _

theorem addMapping (h : builder.Recounts file calls) (mapping : Mapping) :
    (builder.perform (.addMapping mapping)).Recounts file (calls ++ [.addMapping mapping]) := by
  obtain ⟨index, hentries, hname⟩ := exists_entries_addMapping builder mapping.generated
    mapping.origin.source mapping.origin.position
  have hused : used (calls ++ [.addMapping mapping]) =
      if mapping.origin.source ∈ used calls then used calls
      else used calls ++ [mapping.origin.source] := used_concat ..
  have hkept : ∀ source ∈ used calls,
      lastContent (calls ++ [.addMapping mapping]) source = lastContent calls source :=
    fun source hsource => lastContent_append_of_mem hsource _
  have hgrown : ∃ later, used (calls ++ [.addMapping mapping]) = used calls ++ later := by
    rw [hused]
    split
    · exact ⟨[], (List.append_nil _).symm⟩
    · exact ⟨_, rfl⟩
  refine ⟨?_, ?_, ?_⟩
  · rw [lastFile_concat]
    exact (file_addMapping ..).trans h.file_eq
  · rw [perform, toList_sources_addMapping, h.sourceNames_eq, hused, h.sources_eq]
    split
    · exact List.map_congr_left fun source hsource => by rw [hkept source hsource]
    · rename_i hnew
      rw [List.map_append, List.map_singleton, lastContent_concat_of_not_mem hnew]
      congr 1
      exact List.map_congr_left fun source hsource => by rw [hkept source hsource]
  · rw [sourceNames_addMapping, h.sourceNames_eq, ← hused] at hname
    obtain ⟨later, hlater⟩ := hgrown
    rw [perform, hentries, Array.toList_push, added_concat]
    apply List.rel_append
    · rw [hlater]
      exact h.entries.imp fun _ _ hstores => hstores.of_append later
    · exact .cons ⟨rfl, hname, rfl⟩ .nil

theorem setContent (h : builder.Recounts file calls) (name : String)
    (content : Option String) :
    (builder.perform (.setContent name content)).Recounts file
      (calls ++ [.setContent name content]) := by
  have hused : used (calls ++ [.setContent name content]) = used calls := used_concat ..
  refine ⟨?_, ?_, ?_⟩
  · rw [lastFile_concat]
    exact h.file_eq
  · rw [hused]
    change ((builder.sources.map _).toList) = _
    rw [Array.toList_map, h.sources_eq, List.map_map]
    apply List.map_congr_left
    intro source hsource
    rw [lastContent_append_of_mem hsource]
    by_cases hname : name = source
    · simp [hname, Call.content?]
    · simp [hname, Ne.symm hname, Call.content?]
  · rw [hused, added_concat]
    exact (List.append_nil (added calls)).symm ▸ h.entries

theorem setFile (h : builder.Recounts file calls) (last : Option String) :
    (builder.perform (.setFile last)).Recounts file (calls ++ [.setFile last]) := by
  have hused : used (calls ++ [.setFile last]) = used calls := used_concat ..
  refine ⟨?_, ?_, ?_⟩
  · rw [lastFile_concat]
    rfl
  · rw [hused]
    refine h.sources_eq.trans (List.map_congr_left fun source hsource => ?_)
    rw [lastContent_append_of_mem hsource]
    rfl
  · rw [hused, added_concat]
    exact (List.append_nil (added calls)).symm ▸ h.entries

theorem perform (h : builder.Recounts file calls) (call : Call) :
    (builder.perform call).Recounts file (calls ++ [call]) := by
  cases call with
  | addMapping mapping => exact h.addMapping mapping
  | setContent name content => exact h.setContent name content
  | setFile last => exact h.setFile last

theorem run (file : Option String) (calls : List Call) :
    (MapBuilder.run { file } calls).Recounts file calls := by
  induction calls using List.reverseRecOn with
  | nil => exact new file
  | append_singleton calls call ih =>
      rw [run_concat]
      exact ih.perform call

theorem contents_toWire (h : builder.Recounts file calls) :
    builder.toWire.contents =
      if ∀ source ∈ used calls, lastContent calls source = none then none
      else some ((used calls).map (lastContent calls)) := by
  have hany : builder.sources.any (·.2.isSome) =
      (used calls).any fun source => (lastContent calls source).isSome := by
    rw [← Array.any_toList, h.sources_eq, List.any_map]
    rfl
  have htexts : builder.sources.toList.map (·.2) = (used calls).map (lastContent calls) := by
    rw [h.sources_eq, List.map_map]
    rfl
  rw [toWire, hany, htexts]
  by_cases hnone : ∀ source ∈ used calls, lastContent calls source = none
  · rw [if_pos hnone, if_neg]
    simpa using hnone
  · rw [if_neg hnone, if_pos]
    simpa [Option.isSome_iff_ne_none] using hnone

end Recounts

end StyleSplit.MapBuilder
