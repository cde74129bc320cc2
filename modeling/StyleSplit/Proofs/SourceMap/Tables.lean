import StyleSplit.Proofs.SourceMap.History

/-! A builder that keeps its sources in three tables: names by numbers, numbers by names, and
texts by numbers. Over any calls the tables agree with each other and with a builder that
keeps one list. -/

namespace StyleSplit.MapBuilder

structure Tables where
  file : Option String := none
  names : Array String := #[]
  numbers : Std.HashMap String Nat := ∅
  contents : Std.HashMap Nat String := ∅
  entries : Array Entry := #[]

namespace Tables

def number (tables : Tables) (source : String) : Tables × Nat :=
  match tables.numbers[source]? with
  | some number => (tables, number)
  | none =>
      ({ tables with
          names := tables.names.push source
          numbers := tables.numbers.insert source tables.names.size },
        tables.names.size)

def addMapping (tables : Tables) (mapping : Mapping) : Tables :=
  let (tables, number) := tables.number mapping.origin.source
  { tables with
    entries := tables.entries.push ⟨mapping.generated, number, mapping.origin.position⟩ }

def setContent (tables : Tables) (source : String) (content : Option String) : Tables :=
  match tables.numbers[source]?, content with
  | none, _ => tables
  | some number, some text => { tables with contents := tables.contents.insert number text }
  | some number, none => { tables with contents := tables.contents.erase number }

def perform (tables : Tables) : Call → Tables
  | .addMapping mapping => tables.addMapping mapping
  | .setContent source content => tables.setContent source content
  | .setFile file => { tables with file }

def run (tables : Tables) (calls : List Call) : Tables :=
  calls.foldl perform tables

def hasSource (tables : Tables) (source : String) : Bool :=
  tables.numbers.contains source

def toBuilder (tables : Tables) : MapBuilder where
  file := tables.file
  sources := tables.names.mapIdx fun number name => (name, tables.contents[number]?)
  entries := tables.entries

def toWire (tables : Tables) : WireMap where
  version := 3
  file := tables.file
  sources := tables.names.toList.map some
  contents :=
    if tables.contents.isEmpty then none
    else some ((List.range tables.names.size).map (tables.contents[·]?))
  mappings := tables.toBuilder.encodedMappings

/-- The numbers are those of the names, and only numbered sources have texts. -/
structure Consistent (tables : Tables) : Prop where
  numbers_iff : ∀ (name : String) (number : Nat),
    tables.numbers[name]? = some number ↔ tables.names[number]? = some name
  contents_eq_none : ∀ number : Nat,
    tables.names.size ≤ number → tables.contents[number]? = none

variable {tables : Tables}

@[simp] theorem sourceNames_toBuilder (tables : Tables) :
    tables.toBuilder.sourceNames = tables.names.toList := by
  apply List.ext_getElem?
  intro number
  rw [sourceNames, List.getElem?_map, Array.getElem?_toList, toBuilder, Array.getElem?_mapIdx,
    Option.map_map, Array.getElem?_toList]
  exact congrFun Option.map_id _

theorem contents_toBuilder (tables : Tables) :
    tables.toBuilder.sources.toList.map (·.2) =
      (List.range tables.names.size).map (tables.contents[·]?) := by
  apply List.ext_getElem?
  intro number
  rw [List.getElem?_map, Array.getElem?_toList, toBuilder, Array.getElem?_mapIdx,
    List.getElem?_map, Option.map_map]
  by_cases hlt : number < tables.names.size
  · rw [List.getElem?_range hlt, Array.getElem?_eq_getElem hlt]
    rfl
  · rw [List.getElem?_eq_none (by simpa using hlt), Array.getElem?_eq_none (by omega)]
    rfl

namespace Consistent

theorem new (file : Option String) : Consistent { file } :=
  ⟨by simp, by simp⟩

theorem indexOf?_toBuilder (h : tables.Consistent) (source : String) :
    tables.toBuilder.indexOf? source = tables.numbers[source]? := by
  rw [indexOf?_eq, sourceNames_toBuilder]
  apply Option.ext
  intro number
  rw [h.numbers_iff, List.idxOf?_eq_some_iff, ← Array.getElem?_toList]
  constructor
  · rintro ⟨hlt, hname, -⟩
    exact List.getElem?_eq_some_iff.mpr ⟨hlt, hname⟩
  · intro hsource
    obtain ⟨hlt, hname⟩ := List.getElem?_eq_some_iff.mp hsource
    refine ⟨hlt, hname, fun earlier hless hsame => ?_⟩
    have hearlier := (h.numbers_iff source earlier).mpr (by
      rw [← Array.getElem?_toList]
      exact List.getElem?_eq_some_iff.mpr ⟨_, hsame⟩)
    rw [Array.getElem?_toList, ← h.numbers_iff, hearlier] at hsource
    exact absurd (Option.some.inj hsource) (Nat.ne_of_lt hless)

theorem hasSource_toBuilder (h : tables.Consistent) (source : String) :
    tables.toBuilder.hasSource source = tables.hasSource source := by
  rw [MapBuilder.hasSource, h.indexOf?_toBuilder]
  exact Std.HashMap.isSome_getElem?_eq_contains

theorem insert (h : tables.Consistent) {source : String}
    (hnew : tables.numbers[source]? = none) :
    Consistent { tables with
      names := tables.names.push source
      numbers := tables.numbers.insert source tables.names.size } := by
  constructor
  · intro name number
    change (tables.numbers.insert source tables.names.size)[name]? = some number ↔
      (tables.names.push source)[number]? = some name
    rw [Std.HashMap.getElem?_insert, Array.getElem?_push]
    by_cases hname : source = name
    · subst hname
      have hold : ¬ tables.names[number]? = some source := by
        rw [← h.numbers_iff, hnew]
        exact Option.some_ne_none number ∘ Eq.symm
      rw [if_pos (beq_self_eq_true source), Option.some.injEq]
      split
      · rename_i hlast
        exact ⟨fun _ => rfl, fun _ => hlast.symm⟩
      · rename_i hother
        exact ⟨fun hlast => absurd hlast.symm hother, fun hsource => absurd hsource hold⟩
    · rw [if_neg (by simpa using hname), h.numbers_iff]
      split
      · rename_i hlast
        rw [hlast, Array.getElem?_eq_none (Nat.le_refl _), Option.some.injEq]
        exact ⟨fun hnone => absurd hnone (Option.some_ne_none name).symm,
          fun hsame => absurd hsame hname⟩
      · rfl
  · intro number hnumber
    rw [Array.size_push] at hnumber
    exact h.contents_eq_none number (Nat.le_of_succ_le hnumber)

theorem addMapping (h : tables.Consistent) (mapping : Mapping) :
    (tables.addMapping mapping).Consistent ∧
      (tables.addMapping mapping).toBuilder =
        tables.toBuilder.perform (.addMapping mapping) := by
  rw [MapBuilder.perform, MapBuilder.addMapping, h.indexOf?_toBuilder, Tables.addMapping,
    Tables.number]
  cases hnumber : tables.numbers[mapping.origin.source]? with
  | some number => exact ⟨⟨h.numbers_iff, h.contents_eq_none⟩, rfl⟩
  | none =>
      have hinserted := h.insert hnumber
      refine ⟨⟨hinserted.numbers_iff, hinserted.contents_eq_none⟩, ?_⟩
      dsimp only [toBuilder]
      rw [Array.mapIdx_push, h.contents_eq_none _ (Nat.le_refl _), Array.size_mapIdx]

theorem toBuilder_setContent (h : tables.Consistent) {source : String} {number : Nat}
    (hnumber : tables.numbers[source]? = some number) {content : Option String}
    {contents : Std.HashMap Nat String}
    (hcontents : ∀ other : Nat,
      contents[other]? = if number = other then content else tables.contents[other]?) :
    Consistent { tables with contents } ∧
      toBuilder { tables with contents } = tables.toBuilder.setContent source content := by
  have hname := (h.numbers_iff source number).mp hnumber
  refine ⟨⟨h.numbers_iff, fun other hother => ?_⟩, ?_⟩
  · have hlt := (Array.getElem?_eq_some_iff.mp hname).1
    change tables.names.size ≤ other at hother
    change contents[other]? = none
    rw [hcontents, if_neg (by omega), h.contents_eq_none other hother]
  · unfold toBuilder MapBuilder.setContent
    congr 1
    apply Array.ext_getElem?
    intro other
    rw [Array.getElem?_mapIdx, Array.getElem?_map, Array.getElem?_mapIdx, Option.map_map]
    cases hother : tables.names[other]? with
    | none => rfl
    | some name =>
        have hsame : name = source ↔ number = other := by
          rw [← h.numbers_iff] at hother
          constructor
          · rintro rfl
            rw [hother] at hnumber
            exact (Option.some.inj hnumber).symm
          · rintro rfl
            rw [h.numbers_iff, hname] at hother
            exact (Option.some.inj hother).symm
        rw [Option.map_some, Option.map_some, Function.comp_apply, hcontents]
        by_cases heq : name = source
        · simp [heq, hsame.mp heq]
        · simp [heq, mt hsame.mpr heq]

theorem setContent (h : tables.Consistent) (source : String) (content : Option String) :
    (tables.setContent source content).Consistent ∧
      (tables.setContent source content).toBuilder =
        tables.toBuilder.setContent source content := by
  unfold Tables.setContent
  cases hnumber : tables.numbers[source]? with
  | none =>
      refine ⟨h, ?_⟩
      have hnew : source ∉ tables.toBuilder.sourceNames := by
        rw [← List.idxOf?_eq_none_iff, ← indexOf?_eq, h.indexOf?_toBuilder, hnumber]
      exact (setContent_of_not_mem hnew content).symm
  | some number =>
      cases content with
      | some text =>
          refine h.toBuilder_setContent hnumber fun other => ?_
          rw [Std.HashMap.getElem?_insert]
          simp
      | none =>
          refine h.toBuilder_setContent hnumber fun other => ?_
          rw [Std.HashMap.getElem?_erase]
          simp

theorem perform (h : tables.Consistent) (call : Call) :
    (tables.perform call).Consistent ∧
      (tables.perform call).toBuilder = tables.toBuilder.perform call := by
  cases call with
  | addMapping mapping => exact h.addMapping mapping
  | setContent source content => exact h.setContent source content
  | setFile file => exact ⟨⟨h.numbers_iff, h.contents_eq_none⟩, rfl⟩

theorem run (h : tables.Consistent) (calls : List Call) :
    (tables.run calls).Consistent ∧ (tables.run calls).toBuilder = tables.toBuilder.run calls := by
  induction calls generalizing tables with
  | nil => exact ⟨h, rfl⟩
  | cons call calls ih =>
      obtain ⟨hnext, hbuilder⟩ := h.perform call
      obtain ⟨hlast, hrest⟩ := ih hnext
      refine ⟨hlast, hrest.trans ?_⟩
      rw [hbuilder]
      rfl

theorem any_sources_toBuilder (h : tables.Consistent) :
    tables.toBuilder.sources.any (·.2.isSome) = !tables.contents.isEmpty := by
  rw [Bool.eq_iff_iff, Bool.not_eq_true', ← Bool.not_eq_true,
    Std.HashMap.isEmpty_iff_forall_not_mem, ← Array.any_toList, List.any_eq_true]
  constructor
  · rintro ⟨⟨name, content⟩, hentry, hcontent⟩ hempty
    have hmem : content ∈ tables.toBuilder.sources.toList.map (·.2) :=
      List.mem_map_of_mem hentry
    rw [contents_toBuilder, List.mem_map] at hmem
    obtain ⟨number, -, rfl⟩ := hmem
    rw [Std.HashMap.isSome_getElem?_iff_mem] at hcontent
    exact hempty number hcontent
  · intro hsome
    push Not at hsome
    obtain ⟨number, hnumber⟩ := hsome
    rw [← Std.HashMap.isSome_getElem?_iff_mem] at hnumber
    have hlt : number < tables.names.size := by
      by_contra hge
      rw [h.contents_eq_none number (Nat.le_of_not_lt hge)] at hnumber
      cases hnumber
    have hmem : tables.contents[number]? ∈ tables.toBuilder.sources.toList.map (·.2) := by
      rw [contents_toBuilder]
      exact List.mem_map_of_mem (List.mem_range.mpr hlt)
    obtain ⟨entry, hentry, hcontent⟩ := List.mem_map.mp hmem
    exact ⟨entry, hentry, hcontent ▸ hnumber⟩

theorem toWire_toBuilder (h : tables.Consistent) :
    tables.toBuilder.toWire = tables.toWire := by
  unfold MapBuilder.toWire Tables.toWire
  rw [h.any_sources_toBuilder, contents_toBuilder, sourceNames_toBuilder]
  cases tables.contents.isEmpty <;> rfl

end Consistent

end Tables

/-- What a new builder has after any calls: the sources that mappings were added for, by
their first use; the entries with the numbers of their sources; and for each source the
text that it was given last since then. To give text to another source does nothing. The
three tables agree with this at every point. -/
theorem sources_run (file : Option String) (calls : List Call) :
    let builder := run { file } calls
    let tables := Tables.run { file } calls
    builder.sourceNames = used calls ∧
      builder.sourceNames.Nodup ∧
      (∀ source, (builder.hasSource source = true ↔ source ∈ used calls) ∧
        tables.hasSource source = builder.hasSource source) ∧
      List.Forall₂ (Entry.Stores builder.sourceNames) builder.entries.toList (added calls) ∧
      builder.toWire.sources = (used calls).map some ∧
      builder.toWire.contents =
        (if ∀ source ∈ used calls, lastContent calls source = none then none
        else some ((used calls).map (lastContent calls))) ∧
      builder.toWire.file = lastFile file calls ∧
      (∀ source ∉ used calls, ∀ content,
        builder.setContent source content = builder ∧
          tables.setContent source content = tables) ∧
      tables.Consistent ∧ tables.toBuilder = builder ∧ tables.toWire = builder.toWire := by
  intro builder tables
  have hbuilder : builder.Recounts file calls := Recounts.run file calls
  obtain ⟨htables, hsame⟩ := (Tables.Consistent.new file).run calls
  replace hsame : tables.toBuilder = builder := hsame
  have hnames := hbuilder.sourceNames_eq
  have hnumber : ∀ source ∉ used calls, tables.numbers[source]? = none := by
    intro source hsource
    rw [← htables.indexOf?_toBuilder, hsame, indexOf?_eq, hnames]
    exact List.idxOf?_eq_none_iff.mpr hsource
  refine ⟨hnames, ?_, fun source => ⟨?_, ?_⟩, ?_, ?_, hbuilder.contents_toWire,
    hbuilder.file_eq, ?_, htables, hsame, ?_⟩
  · rw [hnames]
    exact nodup_eraseDups _
  · rw [hasSource, indexOf?_eq, hnames, List.isSome_idxOf?]
  · rw [← htables.hasSource_toBuilder, hsame]
  · rw [hnames]
    exact hbuilder.entries
  · rw [toWire, hnames]
  · intro source hsource content
    refine ⟨setContent_of_not_mem (hnames ▸ hsource) content, ?_⟩
    unfold Tables.setContent
    rw [hnumber source hsource]
  · rw [← htables.toWire_toBuilder, hsame]

def revisions : List Call :=
  [.setContent "early.scss" (some "a"),
    .addMapping ⟨⟨1, 0⟩, ⟨"replaced.scss", ⟨1, 0⟩⟩⟩,
    .setContent "replaced.scss" (some "b"),
    .addMapping ⟨⟨2, 0⟩, ⟨"early.scss", ⟨1, 0⟩⟩⟩,
    .addMapping ⟨⟨3, 0⟩, ⟨"removed.scss", ⟨1, 0⟩⟩⟩,
    .setContent "removed.scss" (some "c"),
    .addMapping ⟨⟨4, 0⟩, ⟨"replaced.scss", ⟨2, 0⟩⟩⟩,
    .setContent "removed.scss" none,
    .setContent "replaced.scss" (some "d")]

theorem sources_run_revisions :
    (run {} revisions).sourceNames = ["replaced.scss", "early.scss", "removed.scss"] ∧
      (run {} revisions).toWire.contents = some [some "d", none, none] ∧
      (run {} revisions).setContent "other.scss" (some "e") = run {} revisions := by
  obtain ⟨hnames, -, -, -, -, hcontents, -, hother, -⟩ := sources_run none revisions
  exact ⟨hnames.trans (by decide +kernel), hcontents.trans (by decide +kernel),
    (hother "other.scss" (by decide +kernel) (some "e")).1⟩

end StyleSplit.MapBuilder
