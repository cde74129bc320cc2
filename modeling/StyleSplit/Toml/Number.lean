import StyleSplit.Toml.Quoted

/-! The numbers of TOML text. Each reader takes a whole literal. -/

namespace StyleSplit.Toml

/-- The digits of a number in some base; underscores stand between digits only. -/
def digits? (base : Nat) (afterDigit : Bool) (value : Nat) : List Char → Option Nat
  | [] => if afterDigit then some value else none
  | c :: text =>
      if c = '_' then if afterDigit then digits? base false value text else none
      else
        match hexValue? c with
        | some digit =>
            if digit < base then digits? base true (value * base + digit) text else none
        | none => none

def decimal? : List Char → Option Nat
  | ['0'] => some 0
  | '0' :: _ => none
  | text => digits? 10 false 0 text

def takeSign : List Char → Bool × List Char
  | '+' :: text => (false, text)
  | '-' :: text => (true, text)
  | text => (false, text)

def signed (isNegative : Bool) (magnitude : Nat) : Int :=
  if isNegative then -(magnitude : Int) else magnitude

/-- Only decimal integers have signs; all stay within 64 bits. -/
def integer? (text : List Char) : Option Int := do
  let value : Int ←
    match text with
    | '0' :: 'x' :: text => (digits? 16 false 0 text).map Int.ofNat
    | '0' :: 'o' :: text => (digits? 8 false 0 text).map Int.ofNat
    | '0' :: 'b' :: text => (digits? 2 false 0 text).map Int.ofNat
    | text =>
        let (isNegative, text) := takeSign text
        (decimal? text).map (signed isNegative)
  if Int64.minValue.toInt ≤ value ∧ value ≤ Int64.maxValue.toInt then some value else none

def exponent? : List Char → Option Int
  | [] => some 0
  | c :: text =>
      if c = 'e' ∨ c = 'E' then
        let (isNegative, text) := takeSign text
        (digits? 10 false 0 text).map (signed isNegative)
      else none

def isDecimalChar (c : Char) : Bool :=
  c.isDigit || c == '_'

def scientific? (text : List Char) : Option (Nat × Int) := do
  let whole ← decimal? (text.takeWhile isDecimalChar)
  match text.dropWhile isDecimalChar with
  | [] => none
  | '.' :: text => do
      let fraction := text.takeWhile isDecimalChar
      let significand ← digits? 10 false whole fraction
      let exponent ← exponent? (text.dropWhile isDecimalChar)
      some (significand, exponent - fraction.countP Char.isDigit)
  | text => do
      let exponent ← exponent? text
      some (whole, exponent)

/-- From this number on, rounding to the nearest double of 64 bits gives
infinity: half way from the greatest finite one to the next power of two. -/
def overflowBound : Nat :=
  Nat.pow 2 1024 - Nat.pow 2 970

/-- Whether a number in scientific form rounds to a finite double. Powers of
ten that settle the question by their size alone are not computed. -/
def isFinite (significand : Nat) : Int → Bool
  | .ofNat exponent =>
      significand = 0 ∨ (exponent < 310 ∧ significand * Nat.pow 10 exponent < overflowBound)
  | .negSucc down =>
      significand / Nat.pow 10 (min (down + 1) (significand.log2 + 1)) < overflowBound

def isFloat (text : List Char) : Bool :=
  let (isNegative, text) := takeSign text
  text == ['i', 'n', 'f'] || text == ['n', 'a', 'n'] ||
    (scientific? text).any fun (significand, exponent) =>
      isNegative || isFinite significand exponent

end StyleSplit.Toml
