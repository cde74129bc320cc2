import StyleSplit.Proofs.SourceMap.Lines

/-! The fields of the segments added up without a bound, and one segment read where the
sums before it stand. -/

namespace StyleSplit

namespace Segment

/-- What the segments write in one of their fields, added up. Fields that are left out
change nothing. -/
def total (place : Nat) (segments : List (List Int64)) : Int :=
  (segments.map fun fields => (fields.getD place 0).toInt).sum

@[simp] theorem total_append (place : Nat) (first second : List (List Int64)) :
    total place (first ++ second) = total place first + total place second := by
  rw [total, List.map_append, List.sum_append]
  rfl

@[simp] theorem total_singleton (place : Nat) (fields : List Int64) :
    total place [fields] = (fields.getD place 0).toInt := by
  simp [total]

/-- Where the sums stand at a segment, and how many fields it has. -/
structure Reading where
  width : Nat
  generated : Int
  source : Int
  line : Int
  column : Int
  name : Int

namespace Reading

/-- The reading at the last of the segments `line` of a line. The generated column counts
from the start of the line and all else from the start of the map. -/
def of (before line : List (List Int64)) (fields : List Int64) : Reading where
  width := fields.length
  generated := total 0 line
  source := total 1 (before ++ line)
  line := total 2 (before ++ line)
  column := total 3 (before ++ line)
  name := total 4 (before ++ line)

def ofLine (before first : List (List Int64)) : List (List Int64) → List Reading
  | [] => []
  | fields :: rest =>
      of before (first ++ [fields]) fields :: ofLine before (first ++ [fields]) rest

def ofLines (before : List (List Int64)) : List (List (List Int64)) → List (List Reading)
  | [] => []
  | line :: lines => ofLine before [] line :: ofLines (before ++ line) lines

structure InRange (count : Nat) (reading : Reading) : Prop where
  width : reading.width = 1 ∨ reading.width = 4 ∨ reading.width = 5
  word : ∀ sum ∈ [reading.generated, reading.source, reading.line, reading.column,
    reading.name], 0 ≤ sum ∧ sum ≤ Int64.maxValue.toInt
  generated : reading.generated ≤ 2 ^ 32 - 1
  line : reading.line ≤ 2 ^ 32 - 2
  column : reading.column ≤ 2 ^ 32 - 1
  source : reading.width ≠ 1 → reading.source < count

theorem inRange_iff {count : Nat} {reading : Reading} :
    reading.InRange count ↔
      (reading.width = 1 ∨ reading.width = 4 ∨ reading.width = 5) ∧
      (0 ≤ reading.generated ∧ reading.generated ≤ 2 ^ 32 - 1) ∧
      (0 ≤ reading.source ∧ reading.source ≤ Int64.maxValue.toInt ∧
        (reading.width ≠ 1 → reading.source < count)) ∧
      (0 ≤ reading.line ∧ reading.line ≤ 2 ^ 32 - 2) ∧
      (0 ≤ reading.column ∧ reading.column ≤ 2 ^ 32 - 1) ∧
      (0 ≤ reading.name ∧ reading.name ≤ Int64.maxValue.toInt) := by
  have hmost := Int64.toInt_maxValue
  constructor
  · rintro ⟨hwidth, hword, hgenerated, hline, hcolumn, hlisted⟩
    simp only [List.forall_mem_cons] at hword
    obtain ⟨⟨hg, -⟩, hs, ⟨hl, -⟩, ⟨hc, -⟩, hn, -⟩ := hword
    exact ⟨hwidth, ⟨hg, hgenerated⟩, ⟨hs.1, hs.2, hlisted⟩, ⟨hl, hline⟩, ⟨hc, hcolumn⟩, hn⟩
  · rintro ⟨hwidth, hg, ⟨hs, hle, hlisted⟩, hl, hc, hn⟩
    refine ⟨hwidth, ?_, hg.2, hl.2, hc.2, hlisted⟩
    simp only [List.forall_mem_cons]
    exact ⟨by omega, ⟨hs, hle⟩, by omega, by omega, hn, List.forall_mem_nil _⟩

instance {count : Nat} (reading : Reading) : Decidable (reading.InRange count) :=
  decidable_of_iff _ inRange_iff.symm

def numbers (reading : Reading) : Int × Option (Int × Int × Int) :=
  (reading.generated,
    if reading.width = 1 then none
    else some (reading.source, reading.line + 1, reading.column))

end Reading

variable {count : Nat}

def numbers (segment : Segment count) : Int × Option (Int × Int × Int) :=
  (segment.column.toNat, segment.origin.map fun origin =>
    (origin.source.val, origin.line.toNat, origin.column.toNat))

theorem advance_eq_ok_iff {quantity : Quantity} {sum next : Nat} {change : Int64} :
    advance quantity sum change = .ok next ↔
      sum + change.toInt = next ∧ (next : Int) ≤ Int64.maxValue.toInt := by
  unfold advance
  dsimp only
  split
  · simp only [reduceCtorEq, false_iff]
    omega
  · split
    · simp only [reduceCtorEq, false_iff]
      omega
    · rw [Except.ok.injEq]
      omega

theorem toWord_eq_ok_iff {quantity : Quantity} {sum : Nat} {word : UInt32} :
    toWord quantity sum = .ok word ↔ word.toNat = sum := by
  unfold toWord
  have hlt := word.toNat_lt
  split
  · rename_i hsum
    rw [Except.ok.injEq, ← UInt32.toNat_inj, UInt32.toNat_ofNat_of_lt' hsum]
    exact eq_comm
  · rename_i hsum
    simp only [reduceCtorEq, false_iff]
    have hsize : UInt32.size = 2 ^ 32 := rfl
    omega

theorem Sums.origin_eq_ok_iff {sums : Sums} {origin : Origin count} :
    sums.origin count = .ok origin ↔
      origin.source.val = sums.source ∧ origin.line.toNat = sums.line + 1 ∧
        origin.column.toNat = sums.column := by
  obtain ⟨source, line, column⟩ := origin
  unfold Sums.origin
  split
  · simp only [bind_eq_ok, toWord_eq_ok_iff, pure, Except.pure, Except.ok.injEq,
      Origin.mk.injEq, Fin.ext_iff]
    constructor
    · rintro ⟨_, hline, _, hcolumn, hsource, rfl, rfl⟩
      exact ⟨hsource.symm, hline, hcolumn⟩
    · rintro ⟨hsource, hline, hcolumn⟩
      exact ⟨line, hline, column, hcolumn, hsource.symm, rfl, rfl⟩
  · rename_i hsource
    simp only [reduceCtorEq, false_iff]
    rintro ⟨hindex, -⟩
    exact hsource (hindex ▸ source.isLt)

theorem Sums.advance_eq_ok_iff {sums next : Sums} {source line column : Int64}
    {name : Option Int64} (hname : (sums.name : Int) ≤ Int64.maxValue.toInt) :
    sums.advance source line column name = .ok next ↔
      (sums.source + source.toInt = next.source ∧
        (next.source : Int) ≤ Int64.maxValue.toInt) ∧
      (sums.line + line.toInt = next.line ∧ (next.line : Int) ≤ Int64.maxValue.toInt) ∧
      (sums.column + column.toInt = next.column ∧
        (next.column : Int) ≤ Int64.maxValue.toInt) ∧
      (sums.name + (name.getD 0).toInt = next.name ∧
        (next.name : Int) ≤ Int64.maxValue.toInt) := by
  obtain ⟨nextSource, nextLine, nextColumn, nextName⟩ := next
  unfold Sums.advance
  cases name with
  | none =>
      simp only [bind_eq_ok, Segment.advance_eq_ok_iff, pure, Except.pure, Except.ok.injEq,
        Sums.mk.injEq, Option.getD_none, Int64.toInt_zero, Int.add_zero]
      constructor
      · rintro ⟨_, hsource, _, hline, _, hcolumn, _, rfl, rfl, rfl, rfl, rfl⟩
        exact ⟨hsource, hline, hcolumn, rfl, hname⟩
      · rintro ⟨hsource, hline, hcolumn, hkeep, -⟩
        exact ⟨_, hsource, _, hline, _, hcolumn, _, rfl, rfl, rfl, rfl, Int.ofNat_inj.mp hkeep⟩
  | some change =>
      simp only [bind_eq_ok, Segment.advance_eq_ok_iff, pure, Except.pure, Except.ok.injEq,
        Sums.mk.injEq, Option.getD_some]
      constructor
      · rintro ⟨_, hsource, _, hline, _, hcolumn, _, hread, rfl, rfl, rfl, rfl⟩
        exact ⟨hsource, hline, hcolumn, hread⟩
      · rintro ⟨hsource, hline, hcolumn, hread⟩
        exact ⟨_, hsource, _, hline, _, hcolumn, _, hread, rfl, rfl, rfl, rfl⟩

theorem Sums.eq_iff {first second : Sums} :
    first = second ↔
      first.source = second.source ∧ first.line = second.line ∧
        first.column = second.column ∧ first.name = second.name := by
  cases first
  cases second
  rw [Sums.mk.injEq]

/-- The sums are what the segments before add up to, all of them in range. -/
structure Sums.Counts (sums : Sums) (all : List (List Int64)) : Prop where
  source : (sums.source : Int) = total 1 all
  line : (sums.line : Int) = total 2 all
  column : (sums.column : Int) = total 3 all
  name : (sums.name : Int) = total 4 all
  source_le : (sums.source : Int) ≤ Int64.maxValue.toInt
  line_le : (sums.line : Int) ≤ 2 ^ 32 - 2
  column_le : (sums.column : Int) ≤ 2 ^ 32 - 1
  name_le : (sums.name : Int) ≤ Int64.maxValue.toInt

structure Step.Shows (step : Step count) (reading : Reading) : Prop where
  generated : (step.generated : Int) = reading.generated
  source : (step.sums.source : Int) = reading.source
  line : (step.sums.line : Int) = reading.line
  column : (step.sums.column : Int) = reading.column
  name : (step.sums.name : Int) = reading.name
  numbers : step.segment.numbers = reading.numbers

theorem Sums.Counts.of_append {sums : Sums} {before first : List (List Int64)}
    {generated : Nat} (h : sums.Counts (before ++ first))
    (hgenerated : (generated : Int) = total 0 first) (fields : List Int64) :
    Reading.of before (first ++ [fields]) fields =
      ⟨fields.length, generated + (fields.getD 0 0).toInt,
        sums.source + (fields.getD 1 0).toInt, sums.line + (fields.getD 2 0).toInt,
        sums.column + (fields.getD 3 0).toInt, sums.name + (fields.getD 4 0).toInt⟩ := by
  rw [Reading.of, ← List.append_assoc, total_append 0, total_append 1 (before ++ first),
    total_append 2 (before ++ first), total_append 3 (before ++ first),
    total_append 4 (before ++ first), ← hgenerated, ← h.source, ← h.line, ← h.column, ← h.name]
  simp only [total_singleton]

theorem ofFields_singleton_eq_ok_iff {sums : Sums} {generated : Nat} {change : Int64}
    {step : Step count} :
    ofFields count sums generated [change] = .ok step ↔
      (generated + change.toInt = step.generated ∧
        (step.generated : Int) ≤ Int64.maxValue.toInt) ∧
      step.sums = sums ∧ step.segment.column.toNat = step.generated ∧
      step.segment.origin = none := by
  obtain ⟨next, column, word, origin⟩ := step
  simp only [ofFields, bind_eq_ok, Segment.advance_eq_ok_iff, toWord_eq_ok_iff, pure,
    Except.pure, Except.ok.injEq, Step.mk.injEq, Segment.mk.injEq]
  constructor
  · rintro ⟨_, hgenerated, _, rfl, _, hword, rfl, rfl, rfl, rfl⟩
    exact ⟨hgenerated, rfl, hword, rfl⟩
  · rintro ⟨hgenerated, rfl, hword, rfl⟩
    exact ⟨_, hgenerated, _, rfl, _, hword, rfl, rfl, rfl, rfl⟩

theorem ofFields_origin_eq_ok_iff {sums : Sums} {generated : Nat}
    {change source line column : Int64} {name : Option Int64} {step : Step count} :
    ofFields count sums generated (change :: source :: line :: column :: name.toList) =
        .ok step ↔
      (generated + change.toInt = step.generated ∧
        (step.generated : Int) ≤ Int64.maxValue.toInt) ∧
      sums.advance source line column name = .ok step.sums ∧
      step.segment.column.toNat = step.generated ∧
      ∃ origin, step.sums.origin count = .ok origin ∧ step.segment.origin = some origin := by
  have hfields : ofFields count sums generated
      (change :: source :: line :: column :: name.toList) = (do
        let generated ← advance .generatedColumn generated change
        let sums ← sums.advance source line column name
        let origin ← sums.origin count
        let word ← toWord .generatedColumn generated
        return ⟨sums, generated, ⟨word, some origin⟩⟩) := by
    cases name <;> rfl
  obtain ⟨next, generated, word, origin⟩ := step
  simp only [hfields, bind_eq_ok, Segment.advance_eq_ok_iff, toWord_eq_ok_iff, pure,
    Except.pure, Except.ok.injEq, Step.mk.injEq, Segment.mk.injEq]
  constructor
  · rintro ⟨_, hgenerated, _, hsums, _, horigin, _, hword, rfl, rfl, rfl, rfl⟩
    exact ⟨hgenerated, hsums, hword, _, horigin, rfl⟩
  · rintro ⟨hgenerated, hsums, hword, _, horigin, rfl⟩
    exact ⟨_, hgenerated, _, hsums, _, horigin, _, hword, rfl, rfl, rfl, rfl⟩

theorem Step.shows_iff {step : Step count} {reading : Reading} :
    step.Shows reading ↔
      ((step.generated : Int) = reading.generated ∧ (step.sums.source : Int) = reading.source ∧
        (step.sums.line : Int) = reading.line ∧ (step.sums.column : Int) = reading.column ∧
        (step.sums.name : Int) = reading.name) ∧
      step.segment.numbers = reading.numbers :=
  ⟨fun ⟨hg, hs, hl, hc, hn, hnumbers⟩ => ⟨⟨hg, hs, hl, hc, hn⟩, hnumbers⟩,
    fun ⟨⟨hg, hs, hl, hc, hn⟩, hnumbers⟩ => ⟨hg, hs, hl, hc, hn, hnumbers⟩⟩

theorem Step.shows_nowhere_iff {step : Step count} {reading : Reading}
    (hwidth : reading.width = 1) :
    step.segment.numbers = reading.numbers ↔
      (step.segment.column.toNat : Int) = reading.generated ∧ step.segment.origin = none := by
  simp [Segment.numbers, Reading.numbers, hwidth]

theorem Step.shows_origin_iff {step : Step count} {reading : Reading}
    (hwidth : reading.width ≠ 1) :
    step.segment.numbers = reading.numbers ↔
      (step.segment.column.toNat : Int) = reading.generated ∧
      ∃ origin, step.segment.origin = some origin ∧ (origin.source.val : Int) = reading.source ∧
        (origin.line.toNat : Int) = reading.line + 1 ∧
        (origin.column.toNat : Int) = reading.column := by
  simp [Segment.numbers, Reading.numbers, hwidth]

theorem width_of_ofFields {sums : Sums} {generated : Nat} {fields : List Int64}
    {step : Step count} (h : ofFields count sums generated fields = .ok step) :
    fields.length = 1 ∨ fields.length = 4 ∨ fields.length = 5 := by
  unfold ofFields at h
  split at h
  · cases h
  · obtain ⟨_, -, hrest⟩ := bind_eq_ok.mp h
    dsimp only at hrest
    split at hrest
    · exact .inl rfl
    · exact .inr (.inl rfl)
    · exact .inr (.inr rfl)
    · obtain ⟨_, herror, -⟩ := bind_eq_ok.mp hrest
      cases herror

theorem exists_origin_fields {fields : List Int64} (h : fields.length = 4 ∨ fields.length = 5) :
    ∃ change source line column, ∃ name : Option Int64,
      fields = change :: source :: line :: column :: name.toList := by
  rcases h with hfour | hfive
  · obtain ⟨change, source, line, column, rfl⟩ := List.length_eq_four.mp hfour
    exact ⟨change, source, line, column, none, rfl⟩
  · match fields, hfive with
    | [change, source, line, column, name], _ =>
        exact ⟨change, source, line, column, some name, rfl⟩

/-- A segment is read when and only when the sums at it are in range. -/
theorem ofFields_eq_ok_iff {sums : Sums} {before first : List (List Int64)} {generated : Nat}
    (hsums : sums.Counts (before ++ first)) (hgenerated : (generated : Int) = total 0 first)
    {fields : List Int64} {step : Step count} :
    ofFields count sums generated fields = .ok step ↔
      (Reading.of before (first ++ [fields]) fields).InRange count ∧
        step.Shows (.of before (first ++ [fields]) fields) := by
  rw [hsums.of_append hgenerated]
  obtain ⟨-, -, -, -, hsource, hline, hcolumn, hname⟩ := hsums
  have hmost := Int64.toInt_maxValue
  have hword := step.segment.column.toNat_lt
  by_cases hone : fields.length = 1
  · obtain ⟨change, rfl⟩ := List.length_eq_one_iff.mp hone
    rw [ofFields_singleton_eq_ok_iff, Reading.inRange_iff, Step.shows_iff,
      Step.shows_nowhere_iff rfl, Sums.eq_iff]
    simp only [List.length_singleton, List.getD_cons_zero, List.getD_cons_succ, List.getD_nil,
      Int64.toInt_zero, Int.add_zero]
    constructor
    · rintro ⟨hnext, hkept, hsegment, hnone⟩
      have hlisted : (1 : Nat) ≠ 1 → (sums.source : Int) < count := absurd rfl
      refine ⟨⟨.inl trivial, ?_, ⟨?_, ?_, hlisted⟩, ?_⟩, ?_, ?_, hnone⟩ <;> omega
    · rintro ⟨hrange, hshown, hsegment, hnone⟩
      refine ⟨?_, ?_, ?_, hnone⟩ <;> omega
  by_cases hmore : fields.length = 4 ∨ fields.length = 5
  · obtain ⟨change, source, line, column, name, rfl⟩ := exists_origin_fields hmore
    have hfifth : (change :: source :: line :: column :: name.toList).getD 4 0 = name.getD 0 := by
      cases name <;> rfl
    rw [ofFields_origin_eq_ok_iff, Sums.advance_eq_ok_iff hname, Reading.inRange_iff,
      Step.shows_iff, Step.shows_origin_iff hone, hfifth]
    simp only [Sums.origin_eq_ok_iff, List.getD_cons_zero, List.getD_cons_succ]
    constructor
    · rintro ⟨hnext, hadvance, hsegment, origin, horigin, hsome⟩
      have hlisted := origin.source.isLt
      have hlineLt := origin.line.toNat_lt
      have hcolumnLt := origin.column.toNat_lt
      refine ⟨?_, ?_, ?_, origin, hsome, ?_⟩ <;> omega
    · rintro ⟨hrange, hshown, hsegment, origin, hsome, horigin⟩
      refine ⟨?_, ?_, ?_, origin, ?_, hsome⟩ <;> omega
  · constructor
    · intro hstep
      exact absurd (width_of_ofFields hstep) (not_or.mpr ⟨hone, hmore⟩)
    · rintro ⟨hrange, -⟩
      exact absurd hrange.width (not_or.mpr ⟨hone, hmore⟩)

theorem Sums.counts_nil : Sums.Counts {} [] :=
  ⟨rfl, rfl, rfl, rfl, by decide, by decide, by decide, by decide⟩

theorem Step.Shows.counts {step : Step count} {before line : List (List Int64)}
    {fields : List Int64} (h : step.Shows (.of before line fields))
    (hrange : (Reading.of before line fields).InRange count) :
    step.sums.Counts (before ++ line) := by
  obtain ⟨-, -, ⟨-, hsource, -⟩, ⟨-, hline⟩, ⟨-, hcolumn⟩, -, hname⟩ :=
    Reading.inRange_iff.mp hrange
  exact ⟨h.source, h.line, h.column, h.name, h.source ▸ hsource, h.line ▸ hline,
    h.column ▸ hcolumn, h.name ▸ hname⟩

theorem Reading.InRange.exists_shows {reading : Reading} (h : reading.InRange count) :
    ∃ step : Step count, step.Shows reading := by
  obtain ⟨-, hgenerated, ⟨hsource, -, hlisted⟩, hline, hcolumn, hname, -⟩ :=
    Reading.inRange_iff.mp h
  have hword : ∀ {sum : Int}, 0 ≤ sum → sum ≤ 2 ^ 32 - 1 →
      ((UInt32.ofNat sum.toNat).toNat : Int) = sum := by
    intro sum hpos hle
    rw [UInt32.toNat_ofNat_of_lt' (by change sum.toNat < 2 ^ 32; omega), Int.toNat_of_nonneg hpos]
  have hsums : ∀ segment : Segment count, segment.numbers = reading.numbers →
      ∃ step : Step count, step.Shows reading := fun segment hsegment =>
    ⟨⟨⟨reading.source.toNat, reading.line.toNat, reading.column.toNat, reading.name.toNat⟩,
      reading.generated.toNat, segment⟩, Int.toNat_of_nonneg hgenerated.1,
      Int.toNat_of_nonneg hsource, Int.toNat_of_nonneg hline.1, Int.toNat_of_nonneg hcolumn.1,
      Int.toNat_of_nonneg hname, hsegment⟩
  by_cases hone : reading.width = 1
  · refine hsums ⟨.ofNat reading.generated.toNat, none⟩ ?_
    rw [Segment.numbers, Reading.numbers, if_pos hone, hword hgenerated.1 hgenerated.2]
    rfl
  · refine hsums ⟨.ofNat reading.generated.toNat, some
      ⟨⟨reading.source.toNat, by have := hlisted hone; omega⟩,
        .ofNat (reading.line + 1).toNat, .ofNat reading.column.toNat⟩⟩ ?_
    rw [Segment.numbers, Reading.numbers, if_neg hone, hword hgenerated.1 hgenerated.2,
      Option.map_some, hword (by omega) (by omega), hword hcolumn.1 hcolumn.2,
      Int.toNat_of_nonneg hsource]

end Segment

end StyleSplit
