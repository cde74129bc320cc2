import StyleSplit.Proofs.SourceMap.Vlq

/-! What the digits of a value denote when they are counted without a bound, and what is
read of them in words of 64 bits. -/

namespace StyleSplit.Vlq

/-- The number that the digits of one value denote, the least group first. The last digit
is the only one that says that none follows. -/
def number? : List UInt8 → Option Nat
  | [] => none
  | byte :: bytes =>
      (digit? byte).bind fun digit =>
        if digit.toNat < 32 then if bytes = [] then some digit.toNat else none
        else (number? bytes).map fun high => digit.toNat % 32 + 32 * high

/-- The lowest bit of a number is its sign. -/
def signed (number : Nat) : Int :=
  if number % 2 = 1 then -(number / 2 : Nat) else (number / 2 : Nat)

theorem toNat_digit?_lt {byte : UInt8} {digit : UInt64} (h : digit? byte = some digit) :
    digit.toNat < 64 := by
  have hall : ∀ number : Fin 256,
      (digit? (.ofNat number)).all (fun digit => digit.toNat < 64) = true := by
    decide +kernel
  have hbyte := hall ⟨byte.toNat, byte.toNat_lt⟩
  rw [UInt8.ofNat_toNat, h, Option.all_some] at hbyte
  exact of_decide_eq_true hbyte

theorem and_continuationBit_eq_zero_iff {digit : UInt64} (h : digit.toNat < 64) :
    digit &&& continuationBit = 0 ↔ digit.toNat < 32 := by
  have hall : ∀ number : Fin 64,
      UInt64.ofNat number &&& continuationBit = 0 ↔ number.val < 32 := by
    decide
  have hdigit := hall ⟨digit.toNat, h⟩
  rwa [UInt64.ofNat_toNat] at hdigit

theorem toNat_or_shiftLeft_mod {low word : UInt64} {shift : Nat} (hshift : shift < 64)
    (hlow : low.toNat < 2 ^ shift) :
    (low ||| word <<< .ofNat shift).toNat = (low.toNat + word.toNat * 2 ^ shift) % 2 ^ 64 := by
  have hofNat : (UInt64.ofNat shift).toNat = shift :=
    UInt64.toNat_ofNat_of_lt' (Nat.lt_trans hshift (by decide))
  have hpow : 2 ^ 64 = 2 ^ shift * 2 ^ (64 - shift) := by
    rw [← Nat.pow_add, Nat.add_sub_cancel' (Nat.le_of_lt hshift)]
  have hquotient : (low.toNat + word.toNat * 2 ^ shift) / 2 ^ shift = word.toNat := by
    rw [Nat.add_mul_div_right _ _ (Nat.two_pow_pos shift), Nat.div_eq_of_lt hlow, Nat.zero_add]
  rw [UInt64.toNat_or, UInt64.toNat_shiftLeft, hofNat, Nat.mod_eq_of_lt hshift,
    Nat.shiftLeft_eq, hpow, Nat.mul_comm word.toNat, Nat.mul_mod_mul_left, Nat.mul_comm,
    Nat.or_comm, ← Nat.shiftLeft_eq, ← Nat.shiftLeft_add_eq_or_of_lt hlow, Nat.shiftLeft_eq,
    Nat.mul_comm (2 ^ shift) word.toNat, Nat.mod_mul, hquotient, Nat.add_mul_mod_self_right,
    Nat.mod_eq_of_lt hlow, Nat.add_comm, Nat.mul_comm]

theorem decodeWord_cons {byte : UInt8} {digit low : UInt64} {shift : Nat}
    (hdigit : digit? byte = some digit) (hshift : shift < 64) (hlow : low.toNat < 2 ^ shift)
    (bytes : List UInt8) :
    ∃ word : UInt64, word.toNat = (low.toNat + digit.toNat % 32 * 2 ^ shift) % 2 ^ 64 ∧
      decodeWord shift low (byte :: bytes) =
        if digit.toNat < 32 then (.ok word, bytes) else decodeWord (shift + 5) word bytes := by
  refine ⟨low ||| (digit &&& payloadMask) <<< .ofNat shift, ?_, ?_⟩
  · rw [toNat_or_shiftLeft_mod hshift hlow, toNat_and_payloadMask]
  · rw [decodeWord, hdigit]
    dsimp only
    rw [if_neg (Nat.not_le_of_lt hshift)]
    exact if_congr (and_continuationBit_eq_zero_iff (toNat_digit?_lt hdigit)) rfl rfl

theorem number?_cons {byte : UInt8} {bytes : List UInt8} {number : Nat}
    (h : number? (byte :: bytes) = some number) :
    ∃ digit, digit? byte = some digit ∧
      (digit.toNat < 32 ∧ bytes = [] ∧ number = digit.toNat ∨
        ¬ digit.toNat < 32 ∧ ∃ high, number? bytes = some high ∧
          number = digit.toNat % 32 + 32 * high) := by
  obtain ⟨digit, hdigit, hrest⟩ := Option.bind_eq_some_iff.mp h
  refine ⟨digit, hdigit, ?_⟩
  split at hrest
  · rename_i hends
    split at hrest
    · rename_i hnil
      exact .inl ⟨hends, hnil, (Option.some.inj hrest).symm⟩
    · cases hrest
  · rename_i hgoes
    obtain ⟨high, hhigh, hnumber⟩ := Option.map_eq_some_iff.mp hrest
    exact .inr ⟨hgoes, high, hhigh, hnumber.symm⟩

/-- A number whose last digit starts within the word is read as far as the word goes. -/
theorem decodeWord_of_number? {bytes rest : List UInt8} {number shift : Nat} {low : UInt64}
    (hnumber : number? bytes = some number) (hlow : low.toNat < 2 ^ shift)
    (hlength : shift + 5 * bytes.length < 69) :
    ∃ word, decodeWord shift low (bytes ++ rest) = (.ok word, rest) ∧
      word.toNat = (low.toNat + number * 2 ^ shift) % 2 ^ 64 := by
  induction bytes generalizing shift low number with
  | nil => cases hnumber
  | cons byte bytes ih =>
      rw [List.length_cons] at hlength
      obtain ⟨digit, hdigit, hcases⟩ := number?_cons hnumber
      obtain ⟨word, hword, hdecode⟩ :=
        decodeWord_cons hdigit (by omega) hlow (bytes ++ rest)
      rw [List.cons_append, hdecode]
      rcases hcases with ⟨hends, rfl, rfl⟩ | ⟨hgoes, high, hhigh, rfl⟩
      · rw [if_pos hends]
        exact ⟨word, rfl, by rw [hword, Nat.mod_eq_of_lt hends]⟩
      · have hpow : 2 ^ (shift + 5) = 2 ^ shift * 32 := Nat.pow_add ..
        have hnext : word.toNat < 2 ^ (shift + 5) := by
          have hle := Nat.mod_le (low.toNat + digit.toNat % 32 * 2 ^ shift) (2 ^ 64)
          have hpayload : digit.toNat % 32 * 2 ^ shift ≤ 31 * 2 ^ shift :=
            Nat.mul_le_mul_right _ (Nat.le_of_lt_succ (Nat.mod_lt _ (by decide)))
          omega
        obtain ⟨result, hresult, hvalue⟩ := ih hhigh hnext (by omega)
        rw [if_neg hgoes]
        refine ⟨result, hresult, ?_⟩
        rw [hvalue, hword, Nat.mod_add_mod, hpow, Nat.add_assoc, Nat.add_mul]
        congr 3
        rw [Nat.mul_comm 32, Nat.mul_assoc, Nat.mul_comm 32]

theorem decodeWord_overflow {bytes : List UInt8} {number shift : Nat} {low : UInt64}
    (rest : List UInt8) (hnumber : number? bytes = some number)
    (hlength : 69 ≤ shift + 5 * bytes.length) :
    (decodeWord shift low (bytes ++ rest)).1 = .error .overflow := by
  induction bytes generalizing shift low number with
  | nil => cases hnumber
  | cons byte bytes ih =>
      rw [List.length_cons] at hlength
      obtain ⟨digit, hdigit, hcases⟩ := number?_cons hnumber
      rw [List.cons_append, decodeWord, hdigit]
      dsimp only
      split
      · rfl
      · rename_i hshift
        rcases hcases with ⟨-, rfl, -⟩ | ⟨hgoes, high, hhigh, -⟩
        · rw [List.length_nil] at hlength
          omega
        · rw [if_neg (mt (and_continuationBit_eq_zero_iff (toNat_digit?_lt hdigit)).mp hgoes)]
          exact ih hhigh (by omega)

theorem exists_number? {bytes rest : List UInt8} {shift : Nat} {low word : UInt64}
    (h : decodeWord shift low bytes = (.ok word, rest)) :
    ∃ consumed number, bytes = consumed ++ rest ∧ number? consumed = some number := by
  induction bytes generalizing shift low with
  | nil => cases h
  | cons byte bytes ih =>
      rw [decodeWord] at h
      cases hdigit : digit? byte with
      | none =>
          rw [hdigit] at h
          cases h
      | some digit =>
          rw [hdigit] at h
          dsimp only at h
          have hlt := toNat_digit?_lt hdigit
          split at h
          · cases h
          · split at h
            · rename_i hends
              cases h
              have hsmall := (and_continuationBit_eq_zero_iff hlt).mp hends
              exact ⟨[byte], digit.toNat, rfl, by simp [number?, hdigit, hsmall]⟩
            · rename_i hgoes
              have hlarge := mt (and_continuationBit_eq_zero_iff hlt).mpr hgoes
              obtain ⟨consumed, number, rfl, hnumber⟩ := ih h
              exact ⟨byte :: consumed, _, rfl, by simp [number?, hdigit, hlarge, hnumber]; rfl⟩

theorem toInt_ofWord (word : UInt64) : (ofWord word).toInt = signed word.toNat := by
  have hhalf : (word >>> 1).toNat = word.toNat / 2 := by
    rw [UInt64.toNat_shiftRight]
    exact Nat.shiftRight_eq_div_pow word.toNat 1
  have hparity : (word &&& 1).toNat = word.toNat % 2 := by
    rw [UInt64.toNat_and]
    exact Nat.and_two_pow_sub_one_eq_mod word.toNat 1
  have hlt := word.toNat_lt
  have hmagnitude : (word >>> 1).toInt64.toInt = (word.toNat / 2 : Nat) := by
    change (word >>> 1).toBitVec.toInt = _
    rw [BitVec.toInt_eq_toNat_bmod, UInt64.toNat_toBitVec, hhalf,
      Int.bmod_eq_of_le (by omega) (by omega)]
  have hsign : word &&& 1 = 1 ↔ word.toNat % 2 = 1 := by
    rw [← UInt64.toNat_inj, hparity]
    rfl
  rw [ofWord, signed]
  by_cases hodd : word.toNat % 2 = 1
  · rw [if_pos (hsign.mpr hodd), if_pos hodd, Int64.toInt_neg, hmagnitude,
      Int.bmod_eq_of_le (by omega) (by omega)]
  · rw [if_neg (mt hsign.mp hodd), if_neg hodd, hmagnitude]

theorem signed_mod_eq_iff (number : Nat) :
    signed (number % 2 ^ 64) = signed number ↔ number < 2 ^ 64 := by
  unfold signed
  split <;> split <;> omega

theorem decode_of_number? {consumed rest : List UInt8} {number : Nat}
    (hnumber : number? consumed = some number) (hlength : consumed.length ≤ 13) :
    ∃ value, decode (consumed ++ rest) = (.ok value, rest) ∧
      value.toInt = signed (number % 2 ^ 64) := by
  obtain ⟨word, hword, hvalue⟩ :=
    @decodeWord_of_number? consumed rest number 0 0 hnumber (by decide) (by omega)
  rw [UInt64.toNat_zero, Nat.zero_add, Nat.pow_zero, Nat.mul_one] at hvalue
  refine ⟨ofWord word, ?_, by rw [toInt_ofWord, hvalue]⟩
  rw [decode, hword]
  rfl

theorem decode_overflow {consumed : List UInt8} {number : Nat} (rest : List UInt8)
    (hnumber : number? consumed = some number) (hlength : 13 < consumed.length) :
    (decode (consumed ++ rest)).1 = .error .overflow := by
  have hword := @decodeWord_overflow consumed number 0 0 rest hnumber (by omega)
  change (decodeWord 0 0 (consumed ++ rest)).1.map ofWord = _
  rw [hword]
  rfl

/-- What is read is the value of the digits that were taken, as far as a word goes: it is
exact when and only when their number fits in 64 bits. Of the numbers of thirteen digits
or less none is refused, and longer ones all are. -/
theorem toInt_decode (bytes : List UInt8) :
    (∀ value rest, decode bytes = (.ok value, rest) →
      ∃ consumed number, bytes = consumed ++ rest ∧ number? consumed = some number ∧
        consumed.length ≤ 13 ∧ value.toInt = signed (number % 2 ^ 64) ∧
        (value.toInt = signed number ↔ number < 2 ^ 64)) ∧
    ∀ consumed number rest, bytes = consumed ++ rest → number? consumed = some number →
      (consumed.length ≤ 13 → ∃ value, decode bytes = (.ok value, rest)) ∧
        (13 < consumed.length → (decode bytes).1 = .error .overflow) := by
  constructor
  · intro value rest hdecode
    obtain ⟨word, hword⟩ : ∃ word, decodeWord 0 0 bytes = (.ok word, rest) := by
      unfold decode at hdecode
      generalize decodeWord 0 0 bytes = result at hdecode
      obtain ⟨result, left⟩ := result
      cases result with
      | error => cases hdecode
      | ok word =>
          cases hdecode
          exact ⟨word, rfl⟩
    obtain ⟨consumed, number, rfl, hnumber⟩ := exists_number? hword
    have hlength : consumed.length ≤ 13 := by
      by_contra hgt
      have herror := decode_overflow rest hnumber (Nat.lt_of_not_le hgt)
      rw [hdecode] at herror
      cases herror
    obtain ⟨found, hfound, hvalue⟩ := @decode_of_number? consumed rest number hnumber hlength
    rw [hdecode] at hfound
    cases hfound
    exact ⟨consumed, number, rfl, hnumber, hlength, hvalue,
      by rw [hvalue, signed_mod_eq_iff]⟩
  · rintro consumed number rest rfl hnumber
    refine ⟨fun hlength => ?_, decode_overflow rest hnumber⟩
    obtain ⟨value, hvalue, -⟩ := @decode_of_number? consumed rest number hnumber hlength
    exact ⟨value, hvalue⟩

/-- Thirteen digits, of which the last has a bit that the word does not keep. -/
theorem decode_bit_lost :
    let bytes : List UInt8 := List.replicate 12 103 ++ [81]
    number? bytes = some (2 ^ 64) ∧ signed (2 ^ 64) = 2 ^ 63 ∧ decode bytes = (.ok 0, []) := by
  decide

end StyleSplit.Vlq
