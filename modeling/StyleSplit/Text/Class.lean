/-! Classes of characters: the blanks of a stylesheet, the Unicode property
White_Space, and the characters of names. -/

namespace StyleSplit.Text

def isBlank (c : Char) : Bool :=
  c == ' ' || c == '\t' || c == '\n' || c == '\r' || c == '\x0c'

/-- The Unicode property White_Space. -/
def isWhite (c : Char) : Bool :=
  let code := c.toNat
  (0x09 ≤ code && code ≤ 0x0d) || code == 0x20 || code == 0x85 || code == 0xa0 ||
    code == 0x1680 || (0x2000 ≤ code && code ≤ 0x200a) || code == 0x2028 ||
    code == 0x2029 || code == 0x202f || code == 0x205f || code == 0x3000

def isNameChar (c : Char) : Bool :=
  c.isAlphanum || c == '-' || c == '_'

def trimEnd (text : List Char) : List Char :=
  (text.reverse.dropWhile isWhite).reverse

theorem isWhite_of_isBlank {c : Char} (h : isBlank c = true) : isWhite c = true := by
  simp only [isBlank, Bool.or_eq_true, beq_iff_eq] at h
  rcases h with (((rfl | rfl) | rfl) | rfl) | rfl <;> decide

end StyleSplit.Text
