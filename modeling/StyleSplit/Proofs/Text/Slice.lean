import Mathlib
import StyleSplit.Text.Slice

/-! What a slice says of the text around it, and how byte lengths and units
compare. -/

namespace StyleSplit.Text

theorem utf8ByteSize_ofList (text : List Char) :
    (String.ofList text).utf8ByteSize = byteLength text := by
  induction text with
  | nil => rfl
  | cons c text ih =>
      rw [String.ofList_cons, String.utf8ByteSize_append, ih, byteLength_cons,
        String.utf8ByteSize_singleton]

theorem isSome_cut?_iff {text : List Char} {offset : Nat} :
    (cut? text offset).isSome ↔
      ∃ before after, text = before ++ after ∧ byteLength before = offset := by
  constructor
  · intro h
    obtain ⟨⟨before, after⟩, hcut⟩ := Option.isSome_iff_exists.mp h
    exact ⟨before, after, eq_of_cut? hcut⟩
  · rintro ⟨before, after, rfl, rfl⟩
    simp [cut?_byteLength]

theorem isBoundary_eq_isSome_cut? (text : String) (offset : Nat) :
    isBoundary text offset = (cut? text.toList offset).isSome := by
  rw [Bool.eq_iff_iff, isBoundary, String.Pos.Raw.isValid_eq_true_iff,
    String.Pos.Raw.isValid_iff_exists_append, isSome_cut?_iff]
  constructor
  · rintro ⟨before, after, rfl, hbefore⟩
    refine ⟨before.toList, after.toList, String.toList_append, ?_⟩
    rw [← utf8ByteSize_ofList, String.ofList_toList]
    exact (congrArg String.Pos.Raw.byteIdx hbefore).symm
  · rintro ⟨before, after, htext, hbefore⟩
    refine ⟨.ofList before, .ofList after, ?_, ?_⟩
    · rw [← String.ofList_append, ← htext, String.ofList_toList]
    · rw [← hbefore, ← utf8ByteSize_ofList]
      rfl

theorem extract_end (within after : List Char) (start : Nat) :
    String.Pos.Raw.extract.go₂ (within ++ after) ⟨start⟩
      ⟨start + byteLength within⟩ = within := by
  induction within generalizing start with
  | nil => cases after <;> simp [String.Pos.Raw.extract.go₂]
  | cons c within ih =>
      have hpos := c.utf8Size_pos
      rw [List.cons_append, String.Pos.Raw.extract.go₂, if_neg (by simp; omega)]
      have hnext : (⟨start⟩ : String.Pos.Raw) + c = ⟨start + c.utf8Size⟩ := rfl
      have hstop : start + byteLength (c :: within) =
          start + c.utf8Size + byteLength within := by
        rw [byteLength_cons]; omega
      rw [hnext, hstop, ih]

theorem extract_start (before within after : List Char) (start : Nat)
    (hwithin : within ≠ []) :
    String.Pos.Raw.extract.go₁ (before ++ (within ++ after)) ⟨start⟩
      ⟨start + byteLength before⟩ ⟨start + byteLength before + byteLength within⟩ =
        within := by
  induction before generalizing start with
  | nil =>
      obtain ⟨c, rest, rfl⟩ := List.exists_cons_of_ne_nil hwithin
      rw [List.nil_append, List.cons_append, String.Pos.Raw.extract.go₁,
        if_pos (by simp)]
      exact extract_end (c :: rest) after start
  | cons c before ih =>
      have hpos := c.utf8Size_pos
      rw [List.cons_append, String.Pos.Raw.extract.go₁, if_neg (by simp; omega)]
      have hnext : (⟨start⟩ : String.Pos.Raw) + c = ⟨start + c.utf8Size⟩ := rfl
      have hbefore : start + byteLength (c :: before) =
          start + c.utf8Size + byteLength before := by
        rw [byteLength_cons]; omega
      rw [hnext, hbefore, ih]

theorem cut?_append (before after : List Char) (offset : Nat) :
    cut? (before ++ after) (byteLength before + offset) =
      (cut? after offset).map fun (within, rest) => (before ++ within, rest) := by
  induction before with
  | nil => simp
  | cons c before ih =>
      have hpos := c.utf8Size_pos
      obtain ⟨size, hsize⟩ : ∃ size, byteLength (c :: before) + offset = size + 1 :=
        ⟨byteLength (c :: before) + offset - 1, by rw [byteLength_cons]; omega⟩
      rw [List.cons_append, hsize, cut?]
      rw [byteLength_cons] at hsize
      have hrest : size + 1 - c.utf8Size = byteLength before + offset := by omega
      rw [if_pos (by omega), hrest, ih, Option.map_map]
      rfl

theorem extract_eq (before within after : List Char) :
    String.Pos.Raw.extract (.ofList (before ++ (within ++ after))) ⟨byteLength before⟩
      ⟨byteLength before + byteLength within⟩ = .ofList within := by
  by_cases hwithin : within = []
  · subst hwithin
    simp [String.Pos.Raw.extract]
  · obtain ⟨c, rest, rfl⟩ := List.exists_cons_of_ne_nil hwithin
    have hpos := c.utf8Size_pos
    have hstart := extract_start before (c :: rest) after 0 hwithin
    rw [Nat.zero_add] at hstart
    rw [String.Pos.Raw.extract, if_neg (by simp; omega), String.toList_ofList]
    exact congrArg String.ofList hstart

theorem between?_eq_slice? (text : String) (start stop : Nat) :
    between? text start stop = (slice? text.toList start stop).map String.ofList := by
  rw [between?, isBoundary_eq_isSome_cut?, isBoundary_eq_isSome_cut?, slice?]
  cases hstart : cut? text.toList start with
  | none => simp
  | some cut =>
      obtain ⟨before, after⟩ := cut
      obtain ⟨htext, rfl⟩ := eq_of_cut? hstart
      by_cases hle : byteLength before ≤ stop
      · obtain ⟨offset, rfl⟩ := Nat.exists_eq_add_of_le hle
        have hlt : ¬ byteLength before + offset < byteLength before := by omega
        rw [htext, cut?_append]
        cases hstop : cut? after offset with
        | none => simp [hstop, hlt]
        | some cut =>
            obtain ⟨within, rest⟩ := cut
            obtain ⟨rfl, rfl⟩ := eq_of_cut? hstop
            have hextract := extract_eq before within rest
            rw [← htext, String.ofList_toList] at hextract
            simp [hstop, hlt, hextract]
      · simp [hle, Nat.lt_of_not_le hle]

theorem byteLength_toList (text : String) :
    byteLength text.toList = text.utf8ByteSize := by
  rw [← utf8ByteSize_ofList, String.ofList_toList]

theorem utf8ByteSize_join (texts : List String) :
    (String.join texts).utf8ByteSize = (texts.map String.utf8ByteSize).sum := by
  induction texts with
  | nil => rfl
  | cons text texts ih =>
      rw [String.join_cons, String.utf8ByteSize_append, ih, List.map_cons, List.sum_cons]

theorem byteLength_eq_zero {text : List Char} : byteLength text = 0 ↔ text = [] := by
  cases text with
  | nil => simp
  | cons c text =>
      have hpos := c.utf8Size_pos
      simp only [byteLength_cons, reduceCtorEq, iff_false]
      omega

theorem byteLength_pos {text : List Char} (h : text ≠ []) : 0 < byteLength text :=
  Nat.pos_of_ne_zero (mt byteLength_eq_zero.mp h)

theorem cut?_eq_some_iff {text before after : List Char} {offset : Nat} :
    cut? text offset = some (before, after) ↔
      text = before ++ after ∧ byteLength before = offset := by
  constructor
  · exact eq_of_cut?
  · rintro ⟨rfl, rfl⟩
    exact cut?_byteLength before after

theorem between?_eq_some_iff {text piece : String} {start stop : Nat} :
    between? text start stop = some piece ↔
      ∃ before after, text.toList = before ++ (piece.toList ++ after) ∧
        byteLength before = start ∧ start + byteLength piece.toList = stop := by
  rw [between?_eq_slice?, slice?]
  constructor
  · intro h
    obtain ⟨within, hwithin, rfl⟩ := Option.map_eq_some_iff.mp h
    obtain ⟨⟨before, after⟩, hstart, hrest⟩ := Option.bind_eq_some_iff.mp hwithin
    obtain ⟨htext, hbefore⟩ := cut?_eq_some_iff.mp hstart
    dsimp only at hrest
    split at hrest
    · simp at hrest
    · rename_i hle
      obtain ⟨⟨within, rest⟩, hstop, hwithin⟩ := Option.bind_eq_some_iff.mp hrest
      cases hwithin
      obtain ⟨rfl, hlength⟩ := cut?_eq_some_iff.mp hstop
      refine ⟨before, rest, ?_, hbefore, ?_⟩
      · rw [htext, String.toList_ofList]
      · have hle : start ≤ stop := Nat.le_of_not_lt (by assumption)
        rw [String.toList_ofList]
        change start + byteLength within = stop
        omega
  · rintro ⟨before, after, htext, rfl, rfl⟩
    have hnot : ¬ byteLength before + byteLength piece.toList < byteLength before := by
      omega
    rw [htext, cut?_byteLength]
    simp [hnot, cut?_byteLength]

theorem utf8Size_newline : '\n'.utf8Size = 1 := by decide

theorem utf8Size_leftBrace : '\x7b'.utf8Size = 1 := by decide

theorem utf8Size_rightBrace : '\x7d'.utf8Size = 1 := by decide

theorem unitSize_pos (c : Char) : 0 < unitSize c := by
  unfold unitSize
  split <;> omega

theorem unitSize_le_two (c : Char) : unitSize c ≤ 2 := by
  unfold unitSize
  split <;> omega

theorem unitLength_eq_zero {text : List Char} : unitLength text = 0 ↔ text = [] := by
  cases text with
  | nil => simp
  | cons c text =>
      have hpos := unitSize_pos c
      simp only [unitLength_cons, reduceCtorEq, iff_false]
      omega

theorem unitSize_le_utf8Size (c : Char) : unitSize c ≤ c.utf8Size := by
  have hpos := c.utf8Size_pos
  unfold unitSize
  split
  · exact hpos
  · rename_i hlarge
    have hmany : c.utf8Size ≠ 1 := by
      intro hone
      have hsmall := Char.utf8Size_eq_one_iff.mp hone
      rw [UInt32.le_iff_toNat_le] at hsmall
      exact hlarge (Nat.lt_of_le_of_lt hsmall (by decide))
    omega

theorem unitLength_le_byteLength (text : List Char) :
    unitLength text ≤ byteLength text := by
  induction text with
  | nil => exact Nat.le_refl 0
  | cons c text ih =>
      rw [unitLength_cons, byteLength_cons]
      exact Nat.add_le_add (unitSize_le_utf8Size c) ih

theorem count_newline_le_byteLength (text : List Char) :
    text.count '\n' ≤ byteLength text := by
  induction text with
  | nil => exact Nat.le_refl 0
  | cons c text ih =>
      have hpos := c.utf8Size_pos
      rw [List.count_cons, byteLength_cons]
      split <;> omega

theorem byteLength_replicate_newline (count : Nat) :
    byteLength (List.replicate count '\n') = count := by
  induction count with
  | zero => rfl
  | succ count ih =>
      rw [List.replicate_succ, byteLength_cons, ih, utf8Size_newline, Nat.add_comm]

theorem eq_replicate_of_byteLength_le {text : List Char}
    (h : byteLength text ≤ text.count '\n') :
    text = List.replicate (byteLength text) '\n' := by
  induction text with
  | nil => rfl
  | cons c text ih =>
      have hle := count_newline_le_byteLength text
      have hpos := c.utf8Size_pos
      rw [byteLength_cons] at h ⊢
      by_cases hc : c = '\n'
      · subst hc
        rw [List.count_cons_self, utf8Size_newline] at h
        rw [utf8Size_newline, Nat.add_comm, List.replicate_succ, ← ih (by omega)]
      · rw [List.count_cons_of_ne hc] at h
        omega

end StyleSplit.Text
