import Mathlib
import StyleSplit.SourceMap.Vlq
import StyleSplit.Text.Measure

/-! Reading back the digits that were written for a value. -/

namespace StyleSplit.Vlq

open Text (utf8)

/-! Words of 64 bits as natural numbers. -/

theorem toNat_shiftLeft_of_lt {word : UInt64} {shift : Nat} (hshift : shift < 64)
    (hword : word.toNat * 2 ^ shift < 2 ^ 64) :
    (word <<< .ofNat shift).toNat = word.toNat * 2 ^ shift := by
  have hofNat : (UInt64.ofNat shift).toNat = shift :=
    UInt64.toNat_ofNat_of_lt' (Nat.lt_trans hshift (by decide))
  rw [UInt64.toNat_shiftLeft, hofNat, Nat.mod_eq_of_lt hshift, Nat.shiftLeft_eq,
    Nat.mod_eq_of_lt hword]

theorem toNat_or_shiftLeft {low word : UInt64} {shift : Nat} (hshift : shift < 64)
    (hlow : low.toNat < 2 ^ shift) (hword : word.toNat * 2 ^ shift < 2 ^ 64) :
    (low ||| word <<< .ofNat shift).toNat = low.toNat + word.toNat * 2 ^ shift := by
  rw [UInt64.toNat_or, toNat_shiftLeft_of_lt hshift hword, Nat.or_comm, ← Nat.shiftLeft_eq,
    ← Nat.shiftLeft_add_eq_or_of_lt hlow, Nat.add_comm]

theorem toNat_and_payloadMask (word : UInt64) :
    (word &&& payloadMask).toNat = word.toNat % 32 := by
  rw [UInt64.toNat_and]
  exact Nat.and_two_pow_sub_one_eq_mod word.toNat 5

theorem toNat_shiftRight_five (word : UInt64) : (word >>> 5).toNat = word.toNat / 32 := by
  rw [UInt64.toNat_shiftRight]
  exact Nat.shiftRight_eq_div_pow word.toNat 5

theorem toNat_eq_payload_add (word : UInt64) (shift : Nat) :
    word.toNat * 2 ^ shift =
      (word &&& payloadMask).toNat * 2 ^ shift + (word >>> 5).toNat * 2 ^ (shift + 5) := by
  have hpow : 2 ^ (shift + 5) = 32 * 2 ^ shift := by
    rw [Nat.pow_add, Nat.mul_comm]
  rw [toNat_and_payloadMask, toNat_shiftRight_five, hpow, ← Nat.mul_assoc, ← Nat.add_mul,
    Nat.mul_comm (word.toNat / 32), Nat.mod_add_div]

/-! Digits. -/

theorem exists_digit_byte {digit : UInt64} (hdigit : digit.toNat < 64) :
    ∃ byte, String.utf8EncodeChar (digitChar digit) = [byte] ∧ digit? byte = some digit := by
  have hall : ∀ number : Fin 64,
      (String.utf8EncodeChar (digitChar (.ofNat number))).map digit? =
        [some (.ofNat number)] := by
    decide +kernel
  have hread := hall ⟨digit.toNat, hdigit⟩
  rw [List.map_eq_singleton_iff, UInt64.ofNat_toNat] at hread
  exact hread

theorem and_continuationBit {payload : UInt64} (hpayload : payload.toNat < 32) :
    (payload ||| continuationBit).toNat < 64 ∧
      (payload ||| continuationBit) &&& payloadMask = payload ∧
      (payload ||| continuationBit) &&& continuationBit ≠ 0 ∧
      payload &&& payloadMask = payload ∧ payload &&& continuationBit = 0 := by
  have hall : ∀ number : Fin 32,
      (UInt64.ofNat number ||| continuationBit).toNat < 64 ∧
        (UInt64.ofNat number ||| continuationBit) &&& payloadMask = .ofNat number ∧
        (UInt64.ofNat number ||| continuationBit) &&& continuationBit ≠ 0 ∧
        UInt64.ofNat number &&& payloadMask = .ofNat number ∧
        UInt64.ofNat number &&& continuationBit = 0 := by
    decide
  have hbits := hall ⟨payload.toNat, hpayload⟩
  rwa [UInt64.ofNat_toNat] at hbits

/-! Whole words. -/

/-- The digits of a word are read back onto the lower bits that were read before. -/
theorem decodeWord_encodeWord {shift : Nat} {low word : UInt64} (rest : List UInt8)
    (hshift : shift < 64) (hlow : low.toNat < 2 ^ shift)
    (hword : word.toNat * 2 ^ shift < 2 ^ 64) :
    decodeWord shift low (utf8 (encodeWord word) ++ rest) =
      (.ok (low ||| word <<< .ofNat shift), rest) := by
  fun_induction encodeWord word generalizing shift low with
  | case1 word high =>
      rename_i payload hhigh
      have hsmall : word.toNat < 32 := by
        have hzero := toNat_shiftRight_five word
        change high.toNat = _ at hzero
        rw [hhigh, UInt64.toNat_zero] at hzero
        omega
      have hpayload : payload = word := by
        rw [← UInt64.toNat_inj, toNat_and_payloadMask, Nat.mod_eq_of_lt hsmall]
      rw [hpayload]
      obtain ⟨-, -, -, hlast, hended⟩ := and_continuationBit hsmall
      have hdigit : word.toNat < 64 := by omega
      obtain ⟨byte, hbyte, hread⟩ := exists_digit_byte hdigit
      rw [utf8, List.flatMap_cons, hbyte, List.flatMap_nil, List.append_nil,
        List.singleton_append, decodeWord, hread]
      dsimp only
      rw [if_neg (Nat.not_le_of_lt hshift), hlast, if_pos hended]
  | case2 word high payload =>
      rename_i hhigh ih
      have hmask : payload.toNat = word.toNat % 32 := toNat_and_payloadMask word
      have hsplit : word.toNat * 2 ^ shift =
          payload.toNat * 2 ^ shift + high.toNat * 2 ^ (shift + 5) :=
        toNat_eq_payload_add word shift
      have hpow : 2 ^ (shift + 5) = 2 ^ shift * 32 := Nat.pow_add ..
      have hpos : high.toNat ≠ 0 := by
        intro hzero
        exact hhigh (UInt64.toNat_inj.mp hzero)
      have hnext : shift + 5 < 64 := by
        rw [← Nat.pow_lt_pow_iff_right (a := 2) (by decide)]
        have hle := Nat.le_mul_of_pos_left (2 ^ (shift + 5)) (Nat.pos_of_ne_zero hpos)
        omega
      have hfits : payload.toNat * 2 ^ shift < 2 ^ 64 := by omega
      have hsum := toNat_or_shiftLeft hshift hlow hfits
      have hsmall : payload.toNat < 32 := by omega
      have hlow' : (low ||| payload <<< .ofNat shift).toNat < 2 ^ (shift + 5) := by
        have hle := Nat.mul_le_mul_right (2 ^ shift) (Nat.le_of_lt_succ hsmall)
        omega
      obtain ⟨hdigit, hpayload, hcontinued, -, -⟩ := and_continuationBit hsmall
      obtain ⟨byte, hbyte, hread⟩ := exists_digit_byte hdigit
      rw [utf8, List.flatMap_cons, hbyte, ← utf8, List.singleton_append, List.cons_append,
        decodeWord, hread]
      dsimp only
      rw [if_neg (Nat.not_le_of_lt hshift), hpayload, if_neg hcontinued,
        ih hnext hlow' (by omega)]
      congr 2
      rw [← UInt64.toNat_inj, toNat_or_shiftLeft hnext hlow' (by omega), hsum,
        toNat_or_shiftLeft hshift hlow hword, hsplit]
      omega

/-! Values. -/

theorem magnitude_word {magnitude : UInt64} (hmagnitude : magnitude.toNat < 2 ^ 63) :
    (magnitude <<< 1) >>> 1 = magnitude ∧ (magnitude <<< 1) &&& 1 = 0 ∧
      ((magnitude <<< 1) ||| 1) >>> 1 = magnitude ∧
      ((magnitude <<< 1) ||| 1) &&& 1 = 1 := by
  have hdouble : (magnitude <<< 1).toNat = magnitude.toNat * 2 :=
    @toNat_shiftLeft_of_lt magnitude 1 (by decide) (by omega)
  have hodd : (magnitude <<< 1 ||| 1).toNat = magnitude.toNat * 2 + 1 := by
    rw [UInt64.toNat_or, hdouble, ← pow_one 2, ← Nat.shiftLeft_eq]
    exact (Nat.shiftLeft_add_eq_or_of_lt (by decide) _).symm
  have hhalf (word : UInt64) : (word >>> 1).toNat = word.toNat / 2 := by
    rw [UInt64.toNat_shiftRight]
    exact Nat.shiftRight_eq_div_pow word.toNat 1
  have hparity (word : UInt64) : (word &&& 1).toNat = word.toNat % 2 := by
    rw [UInt64.toNat_and]
    exact Nat.and_two_pow_sub_one_eq_mod word.toNat 1
  refine ⟨?_, ?_, ?_, ?_⟩
  · rw [← UInt64.toNat_inj, hhalf]
    omega
  · rw [← UInt64.toNat_inj, hparity, hdouble]
    exact Nat.mul_mod_left ..
  · rw [← UInt64.toNat_inj, hhalf]
    omega
  · rw [← UInt64.toNat_inj, hparity, hodd]
    exact Nat.mul_add_mod_self_right ..

theorem ofWord_toWord {value : Int64} (hvalue : value ≠ .minValue) :
    ofWord (toWord value) = value := by
  have hmagnitude {magnitude : Int64} (h : 0 ≤ magnitude) :
      magnitude.toUInt64.toNat < 2 ^ 63 := by
    rw [Int64.toNat_toUInt64_of_le h]
    exact magnitude.toNatClampNeg_lt
  unfold toWord ofWord
  by_cases hneg : value < 0
  · have hmin : value.toInt ≠ Int64.minValue.toInt := mt Int64.toInt_inj.mp hvalue
    have hnonneg : 0 ≤ -value := by
      have hlow := value.le_toInt
      rw [Int64.lt_iff_toInt_lt, Int64.toInt_zero] at hneg
      rw [Int64.toInt_minValue] at hmin
      rw [Int64.le_iff_toInt_le, Int64.toInt_zero, Int64.toInt_neg,
        Int.bmod_eq_of_le (by omega) (by omega)]
      omega
    obtain ⟨-, -, hhalf, hparity⟩ := magnitude_word (hmagnitude hnonneg)
    rw [if_pos hneg, if_pos hparity, hhalf, Int64.toInt64_toUInt64, Int64.neg_neg]
  · have hnonneg : 0 ≤ value := Int64.not_lt.mp hneg
    obtain ⟨hhalf, hparity, -, -⟩ := magnitude_word (hmagnitude hnonneg)
    rw [if_neg hneg, hparity, if_neg (by decide), hhalf, Int64.toInt64_toUInt64]

theorem decode_encode {value : Int64} (hvalue : value ≠ .minValue) (rest : List UInt8) :
    decode (utf8 (encode value) ++ rest) = (.ok value, rest) := by
  have hword := @decodeWord_encodeWord 0 0 (toWord value) rest (by decide) (by decide)
    (by simpa using (toWord value).toNat_lt)
  have hzero : (0 : UInt64) ||| toWord value <<< .ofNat 0 = toWord value := by simp
  rw [hzero] at hword
  rw [decode, encode, hword, ← ofWord_toWord hvalue]
  simp [Except.map, ofWord_toWord hvalue]

theorem decodeAll_of_decode {bytes rest : List UInt8} {value : Int64}
    (h : decode bytes = (.ok value, rest)) :
    decodeAll bytes = (decodeAll rest).map (value :: ·) := by
  cases bytes with
  | nil => simp [decode, decodeWord, Except.map] at h
  | cons byte bytes =>
      rw [decodeAll]
      split
      · simp_all
      · simp_all

theorem decodeAll_encode {values : List Int64} (hvalues : ∀ value ∈ values, value ≠ .minValue) :
    decodeAll (utf8 (values.flatMap encode)) = .ok values := by
  induction values with
  | nil => simp [utf8, decodeAll]
  | cons value values ih =>
      obtain ⟨hvalue, hrest⟩ := List.forall_mem_cons.mp hvalues
      rw [List.flatMap_cons, utf8, List.flatMap_append, ← utf8, ← utf8,
        decodeAll_of_decode (decode_encode hvalue _), ih hrest]
      rfl

end StyleSplit.Vlq
