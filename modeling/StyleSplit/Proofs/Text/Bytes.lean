import StyleSplit.Proofs.Text.Slice

/-! The bytes of a text. Those of ASCII characters stand for themselves, and no byte of
another character can be taken for one of them. -/

namespace StyleSplit.Text

/-- The bytes of a text, each as the character of its code. -/
def codes (text : List Char) : List Char :=
  (utf8 text).map Char.ofUInt8

def IsHigh (c : Char) : Prop :=
  0x80 ≤ c.toNat

instance : DecidablePred IsHigh := fun c => inferInstanceAs (Decidable (0x80 ≤ c.toNat))

theorem codes_append (first second : List Char) :
    codes (first ++ second) = codes first ++ codes second := by
  rw [codes, utf8, List.flatMap_append, List.map_append]
  rfl

theorem codes_cons (c : Char) (text : List Char) : codes (c :: text) = codes [c] ++ codes text :=
  codes_append [c] text

theorem length_codes (text : List Char) : (codes text).length = byteLength text := by
  induction text with
  | nil => rfl
  | cons c text ih =>
      rw [codes_cons, List.length_append, ih, byteLength_cons]
      simp [codes, utf8]

theorem utf8Size_of_not_isHigh {c : Char} (hc : ¬ IsHigh c) : c.utf8Size = 1 := by
  rw [Char.utf8Size_eq_one_iff, UInt32.le_iff_toNat_le]
  exact Nat.le_of_lt_succ (Nat.lt_of_not_le hc)

theorem codes_singleton {c : Char} (hc : ¬ IsHigh c) : codes [c] = [c] := by
  have hval : c.val.toUInt8.toUInt32 = c.val := by
    rw [← UInt32.toNat_inj, UInt8.toNat_toUInt32, UInt32.toNat_toUInt8]
    exact Nat.mod_eq_of_lt (Nat.lt_trans (Nat.lt_of_not_le hc) (by decide))
  rw [codes, utf8, List.flatMap_singleton,
    String.utf8EncodeChar_eq_singleton (utf8Size_of_not_isHigh hc), List.map_singleton]
  exact congrArg (fun c => [c]) (Char.ext hval)

theorem isHigh_ofUInt8 {code : Nat} (h : 0x80 ≤ code % 256) :
    IsHigh (Char.ofUInt8 (UInt8.ofNat code)) := by
  change 0x80 ≤ (UInt8.ofNat code).toUInt32.toNat
  rwa [UInt8.toNat_toUInt32, UInt8.toNat_ofNat']

theorem isHigh_of_mem_codes {c d : Char} (hc : IsHigh c) (hd : d ∈ codes [c]) : IsHigh d := by
  have hlarge : ¬ c.val.toNat ≤ 127 := Nat.not_le_of_lt hc
  rw [codes, utf8, List.flatMap_singleton, String.utf8EncodeChar, if_neg hlarge] at hd
  obtain ⟨byte, hbyte, rfl⟩ := List.mem_map.mp hd
  split at hbyte
  · simp only [List.mem_cons, List.not_mem_nil, or_false] at hbyte
    rcases hbyte with rfl | rfl <;> exact isHigh_ofUInt8 (by omega)
  · split at hbyte
    · simp only [List.mem_cons, List.not_mem_nil, or_false] at hbyte
      rcases hbyte with rfl | rfl | rfl <;> exact isHigh_ofUInt8 (by omega)
    · simp only [List.mem_cons, List.not_mem_nil, or_false] at hbyte
      rcases hbyte with rfl | rfl | rfl | rfl <;> exact isHigh_ofUInt8 (by omega)

theorem getElem?_codes (before rest : List Char) (offset : Nat) :
    (codes (before ++ rest))[byteLength before + offset]? = (codes rest)[offset]? := by
  rw [codes_append, List.getElem?_append_right (by rw [length_codes]; omega), length_codes,
    Nat.add_sub_cancel_left]

theorem getElem?_codes_cons {before rest : List Char} {c : Char} (hc : ¬ IsHigh c) :
    (codes (before ++ c :: rest))[byteLength before]? = some c := by
  have hcode := getElem?_codes before (c :: rest) 0
  rwa [Nat.add_zero, codes_cons, codes_singleton hc] at hcode

theorem exists_isHigh {before rest : List Char} {c : Char} (hc : IsHigh c) {offset : Nat}
    (hoffset : offset < c.utf8Size) :
    ∃ d, (codes (before ++ c :: rest))[byteLength before + offset]? = some d ∧ IsHigh d := by
  have hlength : offset < (codes [c]).length := by
    rw [length_codes]
    simpa using hoffset
  rw [getElem?_codes, codes_cons, List.getElem?_append_left hlength,
    List.getElem?_eq_getElem hlength]
  exact ⟨_, rfl, isHigh_of_mem_codes hc (List.getElem_mem hlength)⟩

end StyleSplit.Text
