/-! The strings of TOML text. -/

namespace StyleSplit.Toml

def hexValue? (c : Char) : Option Nat :=
  if '0' ≤ c ∧ c ≤ '9' then some (c.toNat - '0'.toNat)
  else if 'a' ≤ c ∧ c ≤ 'f' then some (c.toNat - 'a'.toNat + 10)
  else if 'A' ≤ c ∧ c ≤ 'F' then some (c.toNat - 'A'.toNat + 10)
  else none

/-- Control characters, tab apart, stand in no string and no comment. -/
def isShown (c : Char) : Bool :=
  c == '\t' || (0x20 ≤ c.toNat && c.toNat != 0x7f)

def isBlank (c : Char) : Bool :=
  c == ' ' || c == '\t'

namespace Quoted

/-- The character of a code written in hexadecimal, unless the code is a
surrogate or too large. -/
def charOfHex? (digits : List Char) : Option Char := do
  let code ← digits.foldlM (fun code digit => (hexValue? digit).map (code * 16 + ·)) 0
  if code < 0xd800 ∨ (0xe000 ≤ code ∧ code < 0x110000) then some (.ofNat code) else none

def escape? (c : Char) : Option Char :=
  match c with
  | 'b' => some '\x08'
  | 't' => some '\t'
  | 'n' => some '\n'
  | 'f' => some '\x0c'
  | 'r' => some '\r'
  | '"' => some '"'
  | '\\' => some '\\'
  | _ => none

structure Style where
  mark : Char
  escapes : Bool
  multiline : Bool
  deriving DecidableEq, Repr

/-- The text between the marks of a string as it is written, and what follows
them. Up to two marks may stand right before the three that close a multi-line
string. -/
def takeRaw? (style : Style) : List Char → Option (List Char × List Char)
  | [] => none
  | [c] => if c = style.mark ∧ style.multiline = false then some ([], []) else none
  | c :: d :: text =>
      if c = '\\' ∧ style.escapes then
        (takeRaw? style text).map fun (raw, rest) => (c :: d :: raw, rest)
      else if c = style.mark ∧ style.multiline = false then some ([], d :: text)
      else if c = style.mark ∧ d = style.mark ∧ text.head? = some style.mark then
        let extra := (text.tail.take 2).takeWhile (· == style.mark)
        some (extra, text.drop (1 + extra.length))
      else (takeRaw? style (d :: text)).map fun (raw, rest) => (c :: raw, rest)

/-- Replaces the escapes of a string. A backslash at the end of a line takes
away the white space after it; while `skipping`, that is going on. -/
def unescape? (multiline skipping : Bool) : List Char → Option (List Char)
  | [] => some []
  | c :: text =>
      if skipping && (isBlank c || c == '\n') then unescape? multiline true text
      else if c = '\\' then
        if multiline && (text.dropWhile isBlank).head? == some '\n' then
          unescape? multiline true text
        else
          match text with
          | 'u' :: a :: b :: c :: d :: text => do
              let c ← charOfHex? [a, b, c, d]
              (unescape? multiline false text).map (c :: ·)
          | 'U' :: a :: b :: c :: d :: e :: f :: g :: h :: text => do
              let c ← charOfHex? [a, b, c, d, e, f, g, h]
              (unescape? multiline false text).map (c :: ·)
          | c :: text => do
              let c ← escape? c
              (unescape? multiline false text).map (c :: ·)
          | [] => none
      else (unescape? multiline false text).map (c :: ·)

/-- What a string stands for, from the text between its marks. A line feed right
after the marks of a multi-line string is not part of it. -/
def Style.value? (style : Style) (raw : List Char) : Option String :=
  let raw := if style.multiline && raw.head? == some '\n' then raw.tail else raw
  if raw.all fun c => isShown c || (style.multiline && c == '\n') then
    (if style.escapes then unescape? style.multiline false raw else some raw).map String.ofList
  else none

def Style.ofMark (mark : Char) (text : List Char) : Style :=
  ⟨mark, mark == '"', text.take 2 == [mark, mark]⟩

end Quoted

open Quoted

def isQuote (c : Char) : Bool :=
  c == '"' || c == '\''

def takeQuoted? (style : Style) (text : List Char) : Option (String × List Char) := do
  let (raw, rest) ← takeRaw? style (text.drop (if style.multiline then 2 else 0))
  let value ← style.value? raw
  some (value, rest)

theorem length_takeRaw?_lt {style : Style} {text raw rest : List Char}
    (h : takeRaw? style text = some (raw, rest)) : rest.length < text.length := by
  fun_induction takeRaw? style text generalizing raw with
  | case1 => simp at h
  | case2 => simp at h; simp [h]
  | case3 => simp at h
  | case4 c d text _ ih =>
      obtain ⟨⟨first, second⟩, htake, heq⟩ := Option.map_eq_some_iff.mp h
      cases heq
      have := ih htake
      simp
      omega
  | case5 => simp at h; simp [← h.2]
  | case6 =>
      simp only [Option.some.injEq, Prod.mk.injEq] at h
      simp [← h.2]
      omega
  | case7 c d text _ _ _ ih =>
      obtain ⟨⟨first, second⟩, htake, heq⟩ := Option.map_eq_some_iff.mp h
      cases heq
      have := ih htake
      simp at this ⊢
      omega

theorem length_takeQuoted?_lt {style : Style} {text rest : List Char} {value : String}
    (h : takeQuoted? style text = some (value, rest)) : rest.length < text.length := by
  unfold takeQuoted? at h
  simp only [Option.bind_eq_bind, Option.bind_eq_some_iff, Option.some.injEq,
    Prod.mk.injEq] at h
  obtain ⟨⟨raw, after⟩, htake, _, _, _, rfl⟩ := h
  have hlength := length_takeRaw?_lt htake
  rw [List.length_drop] at hlength
  exact Nat.lt_of_lt_of_le hlength (Nat.sub_le ..)

end StyleSplit.Toml
