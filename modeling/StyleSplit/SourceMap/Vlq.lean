/-! Variable-length quantities in base 64: five payload bits a digit, least
significant group first, with the sign in the lowest bit. -/

namespace StyleSplit.Vlq

inductive Fault where
  | truncated
  | invalidDigit (byte : UInt8)
  | overflow
  deriving DecidableEq, Repr

def alphabet : List Char :=
  "ABCDEFGHIJKLMNOPQRSTUVWXYZabcdefghijklmnopqrstuvwxyz0123456789+/".toList

def digitChar (digit : UInt64) : Char :=
  alphabet.getD digit.toNat '/'

def digit? (byte : UInt8) : Option UInt64 :=
  if 65 ≤ byte ∧ byte ≤ 90 then some (byte - 65).toUInt64
  else if 97 ≤ byte ∧ byte ≤ 122 then some (byte - 97 + 26).toUInt64
  else if 48 ≤ byte ∧ byte ≤ 57 then some (byte - 48 + 52).toUInt64
  else if byte = 43 then some 62
  else if byte = 47 then some 63
  else none

def payloadMask : UInt64 := 31

def continuationBit : UInt64 := 32

/-- The word that carries a value: its magnitude above its sign bit. The
magnitude of the least value loses its only bit. -/
def toWord (value : Int64) : UInt64 :=
  if value < 0 then ((-value).toUInt64 <<< 1) ||| 1 else value.toUInt64 <<< 1

def ofWord (word : UInt64) : Int64 :=
  let magnitude := (word >>> 1).toInt64
  if word &&& 1 = 1 then -magnitude else magnitude

def encodeWord (word : UInt64) : List Char :=
  let rest := word >>> 5
  let digit := word &&& payloadMask
  if rest = 0 then [digitChar digit]
  else digitChar (digit ||| continuationBit) :: encodeWord rest
termination_by word.toNat
decreasing_by
  have hrest : word >>> 5 ≠ 0 := by assumption
  rw [UInt64.toNat_shiftRight]
  have hpos : word.toNat ≠ 0 := by
    intro hzero
    apply hrest
    apply UInt64.toNat_inj.mp
    simp [hzero]
  have hshift : (5 : UInt64).toNat % 64 = 5 := by decide
  rw [hshift, Nat.shiftRight_eq_div_pow]
  omega

def encode (value : Int64) : List Char :=
  encodeWord (toWord value)

/-- Reads the digits of one value and leaves what follows them. Bits above the
sixty-fourth are lost; a digit that starts past it is refused. -/
def decodeWord (shift : Nat) (word : UInt64) :
    List UInt8 → Except Fault UInt64 × List UInt8
  | [] => (.error .truncated, [])
  | byte :: bytes =>
      match digit? byte with
      | none => (.error (.invalidDigit byte), byte :: bytes)
      | some digit =>
          if 64 ≤ shift then (.error .overflow, bytes)
          else
            let word := word ||| ((digit &&& payloadMask) <<< .ofNat shift)
            if digit &&& continuationBit = 0 then (.ok word, bytes)
            else decodeWord (shift + 5) word bytes

def decode (bytes : List UInt8) : Except Fault Int64 × List UInt8 :=
  let (word, rest) := decodeWord 0 0 bytes
  (word.map ofWord, rest)

theorem length_decodeWord_lt {shift : Nat} {word result : UInt64}
    {bytes rest : List UInt8}
    (h : decodeWord shift word bytes = (.ok result, rest)) :
    rest.length < bytes.length := by
  induction bytes generalizing shift word with
  | nil => simp [decodeWord] at h
  | cons byte bytes ih =>
      rw [decodeWord] at h
      split at h
      · simp at h
      · split at h
        · simp at h
        · dsimp only at h
          split at h
          · simp only [Prod.mk.injEq] at h
            simp [← h.2]
          · exact Nat.lt_succ_of_lt (ih h)

theorem length_decode_lt {bytes rest : List UInt8} {value : Int64}
    (h : decode bytes = (.ok value, rest)) : rest.length < bytes.length := by
  unfold decode at h
  generalize hword : decodeWord 0 0 bytes = result at h
  obtain ⟨word, _⟩ := result
  cases word with
  | error => simp [Except.map] at h
  | ok word =>
      simp only [Except.map, Prod.mk.injEq] at h
      exact length_decodeWord_lt (h.2 ▸ hword)

def decodeAll (bytes : List UInt8) : Except Fault (List Int64) :=
  match bytes with
  | [] => .ok []
  | byte :: bytes =>
      match _ : decode (byte :: bytes) with
      | (.error fault, _) => .error fault
      | (.ok value, rest) => (decodeAll rest).map (value :: ·)
termination_by bytes.length
decreasing_by
  apply length_decode_lt
  assumption

end StyleSplit.Vlq
