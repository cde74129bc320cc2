/-! The digest SHA-256 of a list of bytes. -/

namespace StyleSplit.Sha256

structure State where
  a : UInt32
  b : UInt32
  c : UInt32
  d : UInt32
  e : UInt32
  f : UInt32
  g : UInt32
  h : UInt32
  deriving DecidableEq, Repr

namespace State

def start : State :=
  ⟨0x6a09e667, 0xbb67ae85, 0x3c6ef372, 0xa54ff53a,
    0x510e527f, 0x9b05688c, 0x1f83d9ab, 0x5be0cd19⟩

def words (state : State) : List UInt32 :=
  [state.a, state.b, state.c, state.d, state.e, state.f, state.g, state.h]

def add (first second : State) : State :=
  ⟨first.a + second.a, first.b + second.b, first.c + second.c, first.d + second.d,
    first.e + second.e, first.f + second.f, first.g + second.g, first.h + second.h⟩

end State

def roundConstants : List UInt32 :=
  [0x428a2f98, 0x71374491, 0xb5c0fbcf, 0xe9b5dba5, 0x3956c25b, 0x59f111f1, 0x923f82a4, 0xab1c5ed5,
   0xd807aa98, 0x12835b01, 0x243185be, 0x550c7dc3, 0x72be5d74, 0x80deb1fe, 0x9bdc06a7, 0xc19bf174,
   0xe49b69c1, 0xefbe4786, 0x0fc19dc6, 0x240ca1cc, 0x2de92c6f, 0x4a7484aa, 0x5cb0a9dc, 0x76f988da,
   0x983e5152, 0xa831c66d, 0xb00327c8, 0xbf597fc7, 0xc6e00bf3, 0xd5a79147, 0x06ca6351, 0x14292967,
   0x27b70a85, 0x2e1b2138, 0x4d2c6dfc, 0x53380d13, 0x650a7354, 0x766a0abb, 0x81c2c92e, 0x92722c85,
   0xa2bfe8a1, 0xa81a664b, 0xc24b8b70, 0xc76c51a3, 0xd192e819, 0xd6990624, 0xf40e3585, 0x106aa070,
   0x19a4c116, 0x1e376c08, 0x2748774c, 0x34b0bcb5, 0x391c0cb3, 0x4ed8aa4a, 0x5b9cca4f, 0x682e6ff3,
   0x748f82ee, 0x78a5636f, 0x84c87814, 0x8cc70208, 0x90befffa, 0xa4506ceb, 0xbef9a3f7, 0xc67178f2]

def rotateRight (word count : UInt32) : UInt32 :=
  (word >>> count) ||| (word <<< (32 - count))

def expand : Nat → List UInt32 → List UInt32
  | 0, _ => []
  | count + 1, window =>
      let near := window.getD 14 0
      let far := window.getD 1 0
      let word :=
        (rotateRight near 17 ^^^ rotateRight near 19 ^^^ (near >>> 10)) + window.getD 9 0 +
          (rotateRight far 7 ^^^ rotateRight far 18 ^^^ (far >>> 3)) + window.getD 0 0
      word :: expand count (window.drop 1 ++ [word])

def round (state : State) (constant word : UInt32) : State :=
  let mix := rotateRight state.e 6 ^^^ rotateRight state.e 11 ^^^ rotateRight state.e 25
  let choice := (state.e &&& state.f) ^^^ (~~~state.e &&& state.g)
  let first := state.h + mix + choice + constant + word
  let spread := rotateRight state.a 2 ^^^ rotateRight state.a 13 ^^^ rotateRight state.a 22
  let majority :=
    (state.a &&& state.b) ^^^ (state.a &&& state.c) ^^^ (state.b &&& state.c)
  ⟨first + (spread + majority), state.a, state.b, state.c,
    state.d + first, state.e, state.f, state.g⟩

def compress (state : State) (block : List UInt32) : State :=
  let words := block ++ expand 48 block
  state.add ((roundConstants.zip words).foldl
    (fun state (constant, word) => round state constant word) state)

def bigEndian : Nat → Nat → List UInt8
  | 0, _ => []
  | count + 1, value => .ofNat (value >>> (8 * count)) :: bigEndian count value

/-- Fills the message up to whole blocks, with its length in bits at the end. -/
def pad (message : List UInt8) : List UInt8 :=
  message ++ 0x80 :: List.replicate ((119 - message.length % 64) % 64) 0 ++
    bigEndian 8 (message.length * 8)

def toWords : List UInt8 → List UInt32
  | a :: b :: c :: d :: bytes =>
      ((a.toUInt32 <<< 24) ||| (b.toUInt32 <<< 16) ||| (c.toUInt32 <<< 8) ||| d.toUInt32) ::
        toWords bytes
  | _ => []

def blocks : Nat → List UInt32 → List (List UInt32)
  | 0, _ => []
  | count + 1, words => words.take 16 :: blocks count (words.drop 16)

def hash (message : List UInt8) : List UInt8 :=
  let words := toWords (pad message)
  let state := (blocks (words.length / 16) words).foldl compress .start
  state.words.flatMap fun word => bigEndian 4 word.toNat

theorem length_bigEndian (count value : Nat) : (bigEndian count value).length = count := by
  induction count with
  | zero => rfl
  | succ count ih => simp [bigEndian, ih]

theorem length_hash (message : List UInt8) : (hash message).length = 32 := by
  simp [hash, State.words, length_bigEndian]

end StyleSplit.Sha256
