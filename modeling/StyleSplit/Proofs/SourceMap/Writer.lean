import StyleSplit.Proofs.SourceMap.Resume
import StyleSplit.Proofs.SourceMap.Vlq
import StyleSplit.SourceMap.Builder

/-! Decoding gives back the entries that a builder writes. -/

namespace StyleSplit

/-! Every digit is neither a comma nor a semicolon. -/

theorem Vlq.encodeWord_ne_nil (word : UInt64) : encodeWord word ≠ [] := by
  rw [encodeWord]
  split <;> simp

theorem Vlq.mem_alphabet_of_mem_encodeWord {word : UInt64} {c : Char}
    (hc : c ∈ encodeWord word) : c ∈ alphabet := by
  have hdigit (digit : UInt64) : digitChar digit ∈ alphabet := by
    rw [digitChar, List.getD_eq_getElem?_getD]
    cases hget : alphabet[digit.toNat]? with
    | none => decide
    | some c => exact List.mem_of_getElem? hget
  fun_induction encodeWord word with
  | case1 =>
      rw [List.mem_singleton] at hc
      exact hc ▸ hdigit _
  | case2 word high digit hhigh ih =>
      rcases List.mem_cons.mp hc with rfl | hrest
      · exact hdigit _
      · exact ih hrest

namespace MapBuilder

open Segment (Sums resume Ends)

variable {count : Nat} {entry : Entry} {entries : List Entry} {pen : Pen} {sums : Sums}

def Entry.segment (count : Nat) (entry : Entry) : Segment count where
  column := entry.generated.column
  origin :=
    if h : entry.source < count then
      some ⟨⟨entry.source, h⟩, entry.origin.line, entry.origin.column⟩
    else none

structure Entry.Readable (count : Nat) (entry : Entry) : Prop where
  source_lt : entry.source < count
  line_ne_zero : entry.origin.line ≠ 0

/-- The pen counts from what was read last. -/
structure Pen.Agrees (pen : Pen) (sums : Sums) (generated : Nat) : Prop where
  column : pen.column = generated
  source : pen.source = sums.source
  sourceLine : pen.sourceLine = sums.line
  sourceColumn : pen.sourceColumn = sums.column
  generated_lt : generated < 2 ^ 32
  source_lt : sums.source < 2 ^ 63
  line_lt : sums.line < 2 ^ 32
  column_lt : sums.column < 2 ^ 32

end MapBuilder

namespace Segment

theorem advance_ofInt (quantity : Quantity) {sum next : Nat} (hsum : sum < 2 ^ 63)
    (hnext : next < 2 ^ 63) :
    advance quantity sum (.ofInt ((next : Int) - sum)) = .ok next := by
  have hresult : (sum : Int) + ((next : Int) - sum) = next := by omega
  have hmost := Int64.toInt_maxValue
  unfold advance
  rw [Int64.toInt_ofInt_of_le (by omega) (by omega), hresult]
  dsimp only
  rw [if_neg (by omega), if_neg (by omega)]
  rfl

theorem toWord_toNat (quantity : Quantity) (word : UInt32) :
    toWord quantity word.toNat = .ok word := by
  rw [toWord, if_pos word.toNat_lt, UInt32.ofNat_toNat]

theorem Sums.origin_eq {count : Nat} {sums : Sums} {line column : UInt32}
    (h : sums.source < count) (hline : sums.line + 1 = line.toNat)
    (hcolumn : sums.column = column.toNat) :
    sums.origin count = .ok ⟨⟨sums.source, h⟩, line, column⟩ := by
  rw [Sums.origin, dif_pos h, hline, hcolumn, toWord_toNat, toWord_toNat]
  rfl

end Segment

namespace MapBuilder

open Segment (Sums resume Ends)

variable {count : Nat} {entry : Entry} {entries : List Entry} {pen : Pen} {sums : Sums}

theorem ofFields_fields {generated : Nat} (h : pen.Agrees sums generated)
    (hcount : count ≤ 2 ^ 63) (hentry : entry.Readable count) :
    ∃ next : Sums,
      Segment.ofFields count sums generated ((pen.fields entry).1.map .ofInt) =
        .ok ⟨next, entry.generated.column.toNat, entry.segment count⟩ ∧
      (pen.fields entry).2.Agrees next entry.generated.column.toNat := by
  have hlt := entry.origin.line.toNat_lt
  have hcolumn := entry.origin.column.toNat_lt
  have hgenerated := entry.generated.column.toNat_lt
  have hpos : entry.origin.line.toNat ≠ 0 := by
    intro hzero
    exact hentry.line_ne_zero (UInt32.toNat_inj.mp hzero)
  have hsource := hentry.source_lt
  obtain ⟨hpenColumn, hpenSource, hpenLine, hpenSourceColumn, hg, hs, hl, hc⟩ := h
  refine ⟨⟨entry.source, entry.origin.line.toNat - 1, entry.origin.column.toNat, sums.name⟩,
    ?_, ?_⟩
  · have hcast : (entry.origin.line.toNat : Int) - 1 = (entry.origin.line.toNat - 1 : Nat) := by
      omega
    have horigin : Sums.origin ⟨entry.source, entry.origin.line.toNat - 1,
        entry.origin.column.toNat, sums.name⟩ count =
          .ok ⟨⟨entry.source, hsource⟩, entry.origin.line, entry.origin.column⟩ :=
      Sums.origin_eq hsource (Nat.sub_add_cancel (Nat.pos_of_ne_zero hpos)) rfl
    simp only [Pen.fields, hpenColumn, hpenSource, hpenLine, hpenSourceColumn, hcast,
      List.map_cons, List.map_nil, Segment.ofFields, Sums.advance]
    rw [Segment.advance_ofInt _ (by omega) (by omega),
      Segment.advance_ofInt _ (by omega) (by omega),
      Segment.advance_ofInt _ (by omega) (by omega),
      Segment.advance_ofInt _ (by omega) (by omega)]
    simp only [bind, Except.bind, pure, Except.pure, Segment.toWord_toNat, horigin]
    rw [Entry.segment, dif_pos hsource]
  · refine ⟨rfl, rfl, ?_, rfl, hgenerated, Nat.lt_of_lt_of_le hsource hcount, ?_, hcolumn⟩
    · exact (Int.ofNat_sub (Nat.pos_of_ne_zero hpos)).symm
    · exact Nat.lt_of_le_of_lt (Nat.sub_le ..) hlt

theorem ofInt_ne_minValue_of_mem_fields {generated : Nat}
    (h : pen.Agrees sums generated) (hcount : count ≤ 2 ^ 63)
    (hentry : entry.Readable count) :
    ∀ value ∈ (pen.fields entry).1.map Int64.ofInt, value ≠ .minValue := by
  have hlt := entry.origin.line.toNat_lt
  have hcolumn := entry.origin.column.toNat_lt
  have hgenerated := entry.generated.column.toNat_lt
  have hsource := hentry.source_lt
  obtain ⟨hpenColumn, hpenSource, hpenLine, hpenSourceColumn, hg, hs, hl, hc⟩ := h
  have hfields : ∀ field ∈ (pen.fields entry).1, -2 ^ 63 < field ∧ field < 2 ^ 63 := by
    simp only [Pen.fields, hpenColumn, hpenSource, hpenLine, hpenSourceColumn,
      List.forall_mem_cons]
    refine ⟨by omega, by omega, by omega, by omega, by simp⟩
  intro value hvalue hmin
  obtain ⟨field, hfield, rfl⟩ := List.mem_map.mp hvalue
  obtain ⟨hlow, hhigh⟩ := hfields field hfield
  have hinteger := congrArg Int64.toInt hmin
  rw [Int64.toInt_ofInt_of_le (by omega) hhigh, Int64.toInt_minValue] at hinteger
  omega

def Pen.digits (pen : Pen) (entry : Entry) : List Char :=
  (pen.fields entry).1.flatMap fun field => Vlq.encode (.ofInt field)

theorem digits_eq_flatMap (pen : Pen) (entry : Entry) :
    pen.digits entry = ((pen.fields entry).1.map .ofInt).flatMap Vlq.encode :=
  (List.flatMap_map ..).symm

theorem digits_ne_nil (pen : Pen) (entry : Entry) : pen.digits entry ≠ [] := by
  unfold Pen.digits Pen.fields
  simp [Vlq.encode, Vlq.encodeWord_ne_nil]

theorem mem_alphabet_of_mem_digits {c : Char} (hc : c ∈ pen.digits entry) :
    c ∈ Vlq.alphabet := by
  obtain ⟨field, -, hfield⟩ := List.mem_flatMap.mp hc
  exact Vlq.mem_alphabet_of_mem_encodeWord hfield

theorem resume_digits {generated : Nat} (h : pen.Agrees sums generated)
    (hcount : count ≤ 2 ^ 63) (hentry : entry.Readable count) :
    ∃ next : Sums, (pen.fields entry).2.Agrees next entry.generated.column.toNat ∧
      ∀ text, Ends text →
        resume count sums generated (pen.digits entry ++ text) =
          (resume count next entry.generated.column.toNat text).map
            (List.modifyHead (entry.segment count :: ·)) := by
  obtain ⟨next, hstep, hagrees⟩ := ofFields_fields h hcount hentry
  refine ⟨next, hagrees, ?_⟩
  intro text hends
  have hfields : Segment.decodeFields (pen.digits entry) =
      .ok ((pen.fields entry).1.map .ofInt) := by
    rw [Segment.decodeFields, digits_eq_flatMap,
      Vlq.decodeAll_encode (ofInt_ne_minValue_of_mem_fields h hcount hentry)]
    rfl
  rw [Segment.resume_segment (digits_ne_nil pen entry)
    (fun hc => absurd (mem_alphabet_of_mem_digits hc) (by decide))
    (fun hc => absurd (mem_alphabet_of_mem_digits hc) (by decide)) hends, hfields]
  change Segment.ofFields count sums generated _ >>= _ = _
  rw [hstep]
  change resume count next entry.generated.column.toNat text >>= _ = _
  cases resume count next entry.generated.column.toNat text <;> rfl

theorem write_cons (pen : Pen) (isFirst : Bool) (entry : Entry) (entries : List Entry) :
    pen.write isFirst (entry :: entries) =
      (pen.moveTo entry isFirst).1 ++ ((pen.moveTo entry isFirst).2.digits entry ++
        ((pen.moveTo entry isFirst).2.fields entry).2.write false entries) :=
  List.append_assoc ..

theorem ends_write (pen : Pen) (entries : List Entry) : Ends (pen.write false entries) := by
  cases entries with
  | nil => simp [Ends, Pen.write]
  | cons entry entries =>
      rw [write_cons, Pen.moveTo]
      by_cases hline : pen.line < entry.generated.line.toNat
      · obtain ⟨lines, hlines⟩ := Nat.exists_eq_add_of_lt hline
        have hdifference : entry.generated.line.toNat - pen.line = lines + 1 := by omega
        simp [Ends, hline, hdifference, List.replicate_succ]
      · simp [Ends, hline]

/-- The lines that entries are read back as, the first of them being number
`line`. -/
def rows (count line : Nat) : List Entry → List (List (Segment count))
  | [] => [[]]
  | entry :: entries =>
      List.replicate (entry.generated.line.toNat - line) [] ++
        (rows count entry.generated.line.toNat entries).modifyHead (entry.segment count :: ·)

/-- Entries that are written line after line are read back. -/
theorem resume_write {generated : Nat} (h : pen.Agrees sums generated)
    (hcount : count ≤ 2 ^ 63) (hentries : ∀ entry ∈ entries, entry.Readable count)
    (hlines : ∀ entry ∈ entries, pen.line ≤ entry.generated.line.toNat)
    (hordered : entries.Pairwise fun first second =>
      first.generated.line.toNat ≤ second.generated.line.toNat) (isFirst : Bool) :
    resume count sums generated (pen.write isFirst entries) =
      .ok (rows count pen.line entries) := by
  induction entries generalizing pen sums generated isFirst with
  | nil => rfl
  | cons entry entries ih =>
      obtain ⟨hentry, hrest⟩ := List.forall_mem_cons.mp hentries
      obtain ⟨hfirst, hpairwise⟩ := List.pairwise_cons.mp hordered
      have hfrom {moved : Pen} {column : Nat} (hmoved : moved.Agrees sums column)
          (hline : moved.line = entry.generated.line.toNat) :
          resume count sums column (moved.digits entry ++
              (moved.fields entry).2.write false entries) =
            .ok ((rows count entry.generated.line.toNat entries).modifyHead
              (entry.segment count :: ·)) := by
        obtain ⟨next, hagrees, hresume⟩ := resume_digits hmoved hcount hentry
        have hbelow : (moved.fields entry).2.line = entry.generated.line.toNat := hline
        rw [hresume _ (ends_write _ entries),
          ih hagrees hrest (by rwa [hbelow]) hpairwise false, hbelow]
        rfl
      rw [write_cons, rows, Pen.moveTo]
      by_cases hline : pen.line < entry.generated.line.toNat
      · obtain ⟨lines, hlines⟩ := Nat.exists_eq_add_of_lt hline
        have hdifference : entry.generated.line.toNat - pen.line = lines + 1 := by omega
        have hmoved : Pen.Agrees
            { pen with line := entry.generated.line.toNat, column := 0 } sums 0 :=
          ⟨rfl, h.source, h.sourceLine, h.sourceColumn, by decide, h.source_lt, h.line_lt,
            h.column_lt⟩
        simp only [if_pos hline, hdifference]
        rw [Segment.resume_replicate, hfrom hmoved rfl]
        rfl
      · have hsame : pen.line = entry.generated.line.toNat :=
          Nat.le_antisymm (hlines entry (List.mem_cons_self ..)) (Nat.le_of_not_lt hline)
        simp only [if_neg hline]
        rw [hsame, Nat.sub_self]
        cases isFirst with
        | true => exact hfrom h hsame
        | false =>
            change resume count sums generated (',' :: _) = _
            rw [Segment.resume_comma]
            exact hfrom h hsame

theorem exists_rows (count line : Nat) (entries : List Entry) :
    ∃ first rest, rows count line entries = first :: rest := by
  induction entries generalizing line with
  | nil => exact ⟨[], [], rfl⟩
  | cons entry entries ih =>
      obtain ⟨first, rest, hrows⟩ := ih entry.generated.line.toNat
      rw [rows, hrows, List.modifyHead_cons]
      cases entry.generated.line.toNat - line with
      | zero => exact ⟨_, _, rfl⟩
      | succ lines => exact ⟨_, _, rfl⟩

theorem getD_rows {line : Nat}
    (hlines : ∀ entry ∈ entries, line ≤ entry.generated.line.toNat)
    (hordered : entries.Pairwise fun first second =>
      first.generated.line.toNat ≤ second.generated.line.toNat) (row : Nat) :
    (rows count line entries).getD row [] =
      (entries.filter (·.generated.line.toNat = line + row)).map (Entry.segment count) := by
  induction entries generalizing line row with
  | nil => cases row <;> rfl
  | cons entry entries ih =>
      obtain ⟨hfirst, hpairwise⟩ := List.pairwise_cons.mp hordered
      have hline := hlines entry (List.mem_cons_self ..)
      obtain ⟨skipped, hskipped⟩ := Nat.exists_eq_add_of_le hline
      have hdifference : entry.generated.line.toNat - line = skipped := by omega
      rw [rows, hdifference]
      rcases Nat.lt_or_ge row skipped with hbefore | hfrom
      · have hnone : (entry :: entries).filter
            (·.generated.line.toNat = line + row) = [] := by
          rw [List.filter_eq_nil_iff, List.forall_mem_cons]
          refine ⟨by simp; omega, ?_⟩
          intro later hlater
          have hle := hfirst later hlater
          simp only [decide_eq_true_iff]
          omega
        rw [hnone, List.getD_append _ _ _ _ (by simpa using hbefore)]
        simp [hbefore]
      · obtain ⟨below, rfl⟩ := Nat.exists_eq_add_of_le hfrom
        have hrest := ih hfirst hpairwise below
        obtain ⟨first, rest, hrows⟩ := exists_rows count entry.generated.line.toNat entries
        rw [List.getD_append_right _ _ _ _ (by simp), List.length_replicate,
          Nat.add_sub_cancel_left, hrows, List.modifyHead_cons]
        rw [hrows] at hrest
        rw [← Nat.add_assoc, ← hskipped, List.filter_cons]
        cases below with
        | zero =>
            rw [if_pos (by simp), List.map_cons, ← hrest]
            rfl
        | succ below =>
            rw [if_neg (by simp), ← hrest]
            rfl

end MapBuilder

end StyleSplit
