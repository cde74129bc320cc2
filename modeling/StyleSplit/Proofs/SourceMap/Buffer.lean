import StyleSplit.Proofs.SourceMap.Vlq

/-! Values in the middle of a buffer, which are read from a position on that moves. -/

namespace StyleSplit.Vlq

open Text (utf8)

/-- Reads the digits of one word from a position on, onto the bits below `shift`, and gives
the position where the reading ends. A byte that is no digit is not passed. -/
def wordAt (bytes : Array UInt8) (position shift : Nat) (word : UInt64) :
    Except Fault UInt64 × Nat :=
  match _ : bytes[position]? with
  | none => (.error .truncated, position)
  | some byte =>
      match digit? byte with
      | none => (.error (.invalidDigit byte), position)
      | some digit =>
          if 64 ≤ shift then (.error .overflow, position + 1)
          else
            let word := word ||| ((digit &&& payloadMask) <<< .ofNat shift)
            if digit &&& continuationBit = 0 then (.ok word, position + 1)
            else wordAt bytes (position + 1) (shift + 5) word
termination_by bytes.size - position
decreasing_by
  rename_i hbyte _ _
  have hlt := (Array.getElem?_eq_some_iff.mp hbyte).1
  omega

def valueAt (bytes : Array UInt8) (position : Nat) : Except Fault Int64 × Nat :=
  let (word, position) := wordAt bytes position 0 0
  (word.map ofWord, position)

theorem drop_eq_cons {bytes : Array UInt8} {position : Nat} {byte : UInt8}
    (h : bytes[position]? = some byte) :
    bytes.toList.drop position = byte :: bytes.toList.drop (position + 1) := by
  obtain ⟨hlt, rfl⟩ := Array.getElem?_eq_some_iff.mp h
  exact List.drop_eq_getElem_cons hlt

/-- In a buffer the same is read as from the bytes that it has left, and the position
moves past the bytes that were taken. -/
theorem exists_wordAt (bytes : Array UInt8) (position shift : Nat) (word : UInt64) :
    ∃ taken result rest,
      decodeWord shift word (bytes.toList.drop position) = (result, rest) ∧
        bytes.toList.drop position = taken ++ rest ∧
        wordAt bytes position shift word = (result, position + taken.length) := by
  fun_induction wordAt bytes position shift word with
  | case1 position shift word hbyte =>
      rw [Array.getElem?_eq_none_iff, ← Array.length_toList] at hbyte
      exact ⟨[], _, _, by rw [List.drop_eq_nil_of_le hbyte, decodeWord], rfl, rfl⟩
  | case2 position shift word byte hbyte hdigit =>
      exact ⟨[], _, _, by rw [drop_eq_cons hbyte, decodeWord, hdigit], rfl, rfl⟩
  | case3 position shift word byte hbyte digit hdigit hshift =>
      refine ⟨[byte], _, _, ?_, drop_eq_cons hbyte, rfl⟩
      rw [drop_eq_cons hbyte, decodeWord, hdigit]
      exact if_pos hshift
  | case4 position shift low byte hbyte digit hdigit hshift word hends =>
      refine ⟨[byte], _, _, ?_, drop_eq_cons hbyte, rfl⟩
      rw [drop_eq_cons hbyte, decodeWord, hdigit]
      exact (if_neg hshift).trans (if_pos hends)
  | case5 position shift low byte hbyte digit hdigit hshift word hgoes ih =>
      obtain ⟨taken, result, rest, hdecode, hdrop, hword⟩ := ih
      refine ⟨byte :: taken, result, rest, ?_, ?_, ?_⟩
      · rw [drop_eq_cons hbyte, decodeWord, hdigit, ← hdecode]
        exact (if_neg hshift).trans (if_neg hgoes)
      · rw [drop_eq_cons hbyte, hdrop, List.cons_append]
      · rw [hword, List.length_cons, Nat.add_assoc, Nat.add_comm 1]

theorem valueAt_of_decode {bytes : Array UInt8} {position : Nat} {taken rest : List UInt8}
    {result : Except Fault Int64} (hdecode : decode (taken ++ rest) = (result, rest))
    (hdrop : bytes.toList.drop position = taken ++ rest) :
    valueAt bytes position = (result, position + taken.length) := by
  obtain ⟨passed, word, left, hword, hpassed, hresult⟩ := exists_wordAt bytes position 0 0
  rw [hdrop] at hword hpassed
  rw [decode, hword] at hdecode
  obtain ⟨rfl, rfl⟩ := Prod.mk.inj hdecode
  rw [List.append_cancel_right hpassed, valueAt, hresult]

/-- A value is read back from where its digits start in a buffer, whatever stands before
and after them, and the position is then right past them. So values that are written one
after another are read back one by one. -/
theorem valueAt_encode (values : List Int64) (hvalues : ∀ value ∈ values, value ≠ .minValue) :
    (∀ value ∈ values, ∀ before after : List UInt8,
      decode (utf8 (encode value) ++ after) = (.ok value, after) ∧
        valueAt (before ++ (utf8 (encode value) ++ after)).toArray before.length =
          (.ok value, before.length + (utf8 (encode value)).length)) ∧
      decodeAll (utf8 (values.flatMap encode)) = .ok values := by
  refine ⟨?_, decodeAll_encode hvalues⟩
  intro value hvalue before after
  have hdecode := decode_encode (hvalues value hvalue) after
  refine ⟨hdecode, valueAt_of_decode hdecode ?_⟩
  exact List.drop_left

theorem valueAt_encode_extremes :
    let values : List Int64 := [Int64.maxValue, -Int64.maxValue, 0, -1]
    (∀ value ∈ values, value ≠ .minValue) ∧
      valueAt (([103, 103] : List UInt8) ++
          (utf8 (encode (-Int64.maxValue)) ++ [103, 66])).toArray 2 =
        (.ok (-Int64.maxValue), 15) ∧
      decodeAll (utf8 (values.flatMap encode)) = .ok values := by
  intro values
  have hvalues : ∀ value ∈ values, value ≠ .minValue := by
    simp only [values, List.forall_mem_cons]
    exact ⟨by decide, by decide, by decide, by decide, by simp⟩
  have hleast : -Int64.maxValue ∈ values := .tail _ (.head _)
  have hword : toWord (-Int64.maxValue) = 18446744073709551615 := by decide +kernel
  have hlength : (utf8 (encode (-Int64.maxValue))).length = 13 := by
    rw [encode, hword]
    cbv
  obtain ⟨hsingle, hall⟩ := valueAt_encode values hvalues
  have hvalue := (hsingle (-Int64.maxValue) hleast [103, 103] [103, 66]).2
  rw [hlength] at hvalue
  exact ⟨hvalues, hvalue, hall⟩

/-- The least value is written without its only bit. -/
example : decode (utf8 (encode .minValue)) = (.ok 0, []) := by
  have hword : toWord .minValue = 1 := by decide +kernel
  rw [encode, hword]
  cbv

end StyleSplit.Vlq
