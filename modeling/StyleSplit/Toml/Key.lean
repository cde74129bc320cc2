import StyleSplit.Toml.Quoted

/-! The keys of TOML text. -/

namespace StyleSplit.Toml

def dropBlanks (text : List Char) : List Char :=
  text.dropWhile isBlank

theorem length_dropBlanks_le (text : List Char) :
    (dropBlanks text).length ≤ text.length :=
  (List.dropWhile_sublist isBlank).length_le

def isKeyChar (c : Char) : Bool :=
  c.isAlphanum || c == '-' || c == '_'

def takeKeyPart? : List Char → Option (String × List Char)
  | [] => none
  | c :: text =>
      if isQuote c then
        if (Quoted.Style.ofMark c text).multiline then none
        else takeQuoted? (.ofMark c text) text
      else if isKeyChar c then
        some (.ofList (c :: text.takeWhile isKeyChar), text.dropWhile isKeyChar)
      else none

theorem length_takeKeyPart?_lt {text rest : List Char} {part : String}
    (h : takeKeyPart? text = some (part, rest)) : rest.length < text.length := by
  unfold takeKeyPart? at h
  split at h
  · simp at h
  · next c text =>
      split at h
      · split at h
        · simp at h
        · exact Nat.lt_succ_of_lt (length_takeQuoted?_lt h)
      · split at h
        · simp only [Option.some.injEq, Prod.mk.injEq] at h
          rw [← h.2]
          exact Nat.lt_succ_of_le (List.dropWhile_sublist isKeyChar).length_le
        · simp at h

/-- A dotted key of so many parts at most, as its path and its last part, and
what follows it and the blanks after it. -/
def takeKey? : Nat → List Char → Option (List String × String × List Char)
  | 0, _ => none
  | parts + 1, text => do
      let (part, text) ← takeKeyPart? (dropBlanks text)
      match dropBlanks text with
      | '.' :: text => do
          let (path, last, text) ← takeKey? parts text
          some (part :: path, last, text)
      | text => some ([], part, text)

theorem length_takeKey?_lt {parts : Nat} {text rest : List Char} {path : List String}
    {last : String} (h : takeKey? parts text = some (path, last, rest)) :
    rest.length < text.length := by
  induction parts generalizing text path last with
  | zero => simp [takeKey?] at h
  | succ parts ih =>
      simp only [takeKey?, Option.bind_eq_bind, Option.bind_eq_some_iff] at h
      obtain ⟨⟨part, after⟩, hpart, h⟩ := h
      have hstart := length_dropBlanks_le text
      have hafter := length_takeKeyPart?_lt hpart
      have hnext := length_dropBlanks_le after
      split at h
      · next heq =>
          simp only [Option.bind_eq_some_iff, Option.some.injEq, Prod.mk.injEq] at h
          obtain ⟨⟨_, _, _⟩, htake, _, _, rfl⟩ := h
          have := ih htake
          rw [heq, List.length_cons] at hnext
          omega
      · simp only [Option.some.injEq, Prod.mk.injEq] at h
        rw [← h.2.2]
        omega

end StyleSplit.Toml
