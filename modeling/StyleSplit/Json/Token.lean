/-! The tokens of JSON text. -/

namespace StyleSplit.Json

inductive Token where
  | null
  | bool (value : Bool)
  | number (literal : String)
  | string (value : Option String)
  | openArray
  | closeArray
  | openObject
  | closeObject
  | colon
  | comma
  deriving DecidableEq, Repr

namespace Token

/-- A character of a string literal, or half of one written as an escape. -/
inductive Piece where
  | char (c : Char)
  | surrogate (unit : Nat)
  deriving DecidableEq, Repr

def hexValue? (c : Char) : Option Nat :=
  if '0' ≤ c ∧ c ≤ '9' then some (c.toNat - '0'.toNat)
  else if 'a' ≤ c ∧ c ≤ 'f' then some (c.toNat - 'a'.toNat + 10)
  else if 'A' ≤ c ∧ c ≤ 'F' then some (c.toNat - 'A'.toNat + 10)
  else none

def hexValues? (digits : List Char) : Option Nat :=
  digits.foldlM (fun value digit => (hexValue? digit).map (value * 16 + ·)) 0

def Piece.ofUnit (unit : Nat) : Piece :=
  if 0xd800 ≤ unit ∧ unit < 0xe000 then surrogate unit else char (.ofNat unit)

def escape? (c : Char) : Option Char :=
  match c with
  | '"' => some '"'
  | '\\' => some '\\'
  | '/' => some '/'
  | 'b' => some '\x08'
  | 'f' => some '\x0c'
  | 'n' => some '\n'
  | 'r' => some '\r'
  | 't' => some '\t'
  | _ => none

def takeString? : List Char → Option (List Piece × List Char)
  | [] => none
  | '"' :: text => some ([], text)
  | '\\' :: 'u' :: a :: b :: c :: d :: text => do
      let unit ← hexValues? [a, b, c, d]
      let (pieces, rest) ← takeString? text
      some (.ofUnit unit :: pieces, rest)
  | '\\' :: c :: text => do
      let c ← escape? c
      let (pieces, rest) ← takeString? text
      some (.char c :: pieces, rest)
  | c :: text =>
      if c.toNat < 0x20 ∨ c = '\\' then none
      else (takeString? text).map fun (pieces, rest) => (.char c :: pieces, rest)

/-- Joins surrogate pairs; `none` when one is left alone. -/
def joinPieces? : List Piece → Option (List Char)
  | [] => some []
  | .char c :: pieces => (joinPieces? pieces).map (c :: ·)
  | .surrogate high :: .surrogate low :: pieces =>
      if high < 0xdc00 ∧ 0xdc00 ≤ low then
        (joinPieces? pieces).map
          (.ofNat (0x10000 + (high - 0xd800) * 0x400 + (low - 0xdc00)) :: ·)
      else none
  | .surrogate _ :: _ => none

def isExponent : List Char → Bool
  | [] => true
  | c :: text =>
      let digits :=
        match text with
        | '+' :: text | '-' :: text => text
        | text => text
      (c == 'e' || c == 'E') && !digits.isEmpty && digits.all Char.isDigit

def isFraction : List Char → Bool
  | '.' :: c :: text => c.isDigit && isExponent (text.dropWhile Char.isDigit)
  | text => isExponent text

def isNatural : List Char → Bool
  | '0' :: text => isFraction text
  | c :: text => c.isDigit && isFraction (text.dropWhile Char.isDigit)
  | [] => false

def isNumber : List Char → Bool
  | '-' :: text => isNatural text
  | text => isNatural text

def isNumberChar (c : Char) : Bool :=
  c.isDigit || c == '-' || c == '+' || c == '.' || c == 'e' || c == 'E'

def mark? (c : Char) : Option Token :=
  match c with
  | '[' => some openArray
  | ']' => some closeArray
  | '\x7b' => some openObject
  | '\x7d' => some closeObject
  | ':' => some colon
  | ',' => some comma
  | _ => none

def ofWord? (word : List Char) : Option Token :=
  if word = "null".toList then some null
  else if word = "true".toList then some (bool true)
  else if word = "false".toList then some (bool false)
  else if isNumber word then some (number (.ofList word))
  else none

def isWordChar (c : Char) : Bool :=
  c.isAlpha || isNumberChar c

theorem length_takeString?_lt {text rest : List Char} {pieces : List Piece}
    (h : takeString? text = some (pieces, rest)) : rest.length < text.length := by
  fun_induction takeString? text generalizing pieces with
  | case1 => simp at h
  | case2 text => simp at h; simp [h.2]
  | case3 a b c d text ih =>
      simp only [Option.bind_eq_bind, Option.bind_eq_some_iff] at h
      obtain ⟨_, _, ⟨first, second⟩, htake, heq⟩ := h
      simp only [Option.some.injEq, Prod.mk.injEq] at heq
      have := ih (heq.2 ▸ htake)
      simp
      omega
  | case4 c text _ ih =>
      simp only [Option.bind_eq_bind, Option.bind_eq_some_iff] at h
      obtain ⟨_, _, ⟨first, second⟩, htake, heq⟩ := h
      simp only [Option.some.injEq, Prod.mk.injEq] at heq
      have := ih (heq.2 ▸ htake)
      simp
      omega
  | case5 => simp at h
  | case6 c text _ _ _ _ ih =>
      obtain ⟨⟨first, second⟩, htake, heq⟩ := Option.map_eq_some_iff.mp h
      cases heq
      exact Nat.lt_succ_of_lt (ih htake)

def ofText? (text : List Char) : Option (List Token) :=
  match text with
  | [] => some []
  | c :: text =>
      if c = ' ' ∨ c = '\t' ∨ c = '\n' ∨ c = '\r' then ofText? text
      else if c = '"' then
        match _ : takeString? text with
        | none => none
        | some (pieces, rest) =>
            (ofText? rest).map
              (string ((joinPieces? pieces).map String.ofList) :: ·)
      else if isWordChar c then do
        let token ← ofWord? (c :: text.takeWhile isWordChar)
        let tokens ← ofText? (text.dropWhile isWordChar)
        some (token :: tokens)
      else do
        let token ← mark? c
        let tokens ← ofText? text
        some (token :: tokens)
termination_by text.length
decreasing_by
  · simp
  · have := length_takeString?_lt (by assumption)
    exact Nat.lt_succ_of_lt this
  · have := (List.dropWhile_sublist isWordChar (l := text)).length_le
    exact Nat.lt_succ_of_le this
  · simp

end Token

end StyleSplit.Json
