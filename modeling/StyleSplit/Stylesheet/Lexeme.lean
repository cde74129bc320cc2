import StyleSplit.Text.Measure

/-! The units that a rule boundary never cuts: quoted strings, comments and
escapes, with every other character a unit of its own. -/

namespace StyleSplit

inductive Lexeme where
  | plain (c : Char)
  /-- A backslash and the character after it, if any. -/
  | escape (c : Option Char)
  /-- The quotation mark, and the text up to its match or the end of the line. -/
  | quoted (mark : Char) (rest : List Char)
  | comment (body : List Char)
  /-- A comment without an end takes all the text there is. -/
  | openComment (body : List Char)
  deriving DecidableEq, Repr

namespace Lexeme

def text : Lexeme → List Char
  | plain c => [c]
  | escape none => ['\\']
  | escape (some c) => ['\\', c]
  | quoted mark rest => mark :: rest
  | comment body => '/' :: '*' :: (body ++ ['*', '/'])
  | openComment body => '/' :: '*' :: body

def size (lexeme : Lexeme) : Nat :=
  Text.byteLength lexeme.text

def textOf (lexemes : List Lexeme) : List Char :=
  lexemes.flatMap text

def sizeOf (lexemes : List Lexeme) : Nat :=
  lexemes.foldr (fun lexeme total => lexeme.size + total) 0

/-- The rest of a quoted string after its mark, and what follows it. An escaped
character never ends it; a line feed does, and stays outside. -/
def takeQuoted (mark : Char) : List Char → List Char × List Char
  | [] => ([], [])
  | ['\\'] => (['\\'], [])
  | '\\' :: c :: text =>
      let (within, rest) := takeQuoted mark text
      ('\\' :: c :: within, rest)
  | c :: text =>
      if c = '\n' then ([], c :: text)
      else if c = mark then ([c], text)
      else
        let (within, rest) := takeQuoted mark text
        (c :: within, rest)

def takeComment? : List Char → Option (List Char × List Char)
  | [] => none
  | '*' :: '/' :: text => some ([], text)
  | c :: text => (takeComment? text).map fun (body, rest) => (c :: body, rest)

theorem takeQuoted_append (mark : Char) (text : List Char) :
    (takeQuoted mark text).1 ++ (takeQuoted mark text).2 = text := by
  fun_induction takeQuoted mark text <;> simp_all

theorem takeComment?_append {text body rest : List Char}
    (h : takeComment? text = some (body, rest)) :
    text = body ++ '*' :: '/' :: rest := by
  induction text generalizing body with
  | nil => simp [takeComment?] at h
  | cons c text ih =>
      unfold takeComment? at h
      split at h
      · simp_all
      · simp only [Option.some.injEq, Prod.mk.injEq] at h
        simp_all
      · obtain ⟨⟨first, second⟩, htake, heq⟩ := Option.map_eq_some_iff.mp h
        cases heq
        simp_all

theorem length_takeQuoted_le (mark : Char) (text : List Char) :
    (takeQuoted mark text).2.length ≤ text.length := by
  have h := congrArg List.length (takeQuoted_append mark text)
  rw [List.length_append] at h
  omega

theorem length_takeComment?_lt {text body rest : List Char}
    (h : takeComment? text = some (body, rest)) : rest.length < text.length := by
  rw [takeComment?_append h]
  simp
  omega

def ofText : List Char → List Lexeme
  | [] => []
  | c :: text =>
      if c = '\\' then
        match text with
        | [] => [escape none]
        | d :: text => escape (some d) :: ofText text
      else if c = '"' ∨ c = '\'' then
        quoted c (takeQuoted c text).1 :: ofText (takeQuoted c text).2
      else if c = '/' ∧ text.head? = some '*' then
        match _ : takeComment? text.tail with
        | some (body, rest) => comment body :: ofText rest
        | none => [openComment text.tail]
      else plain c :: ofText text
termination_by text => text.length
decreasing_by
  · simp only [List.length_cons]
    omega
  · have := length_takeQuoted_le c text
    simp only [List.length_cons]
    omega
  · rename_i hrest
    have := length_takeComment?_lt hrest
    simp only [List.length_tail, List.length_cons] at *
    omega
  · simp

end Lexeme

end StyleSplit
