import StyleSplit.Toml.Basic
import StyleSplit.Toml.Key
import StyleSplit.Toml.Moment
import StyleSplit.Toml.Number

/-! Reading TOML text. -/

namespace StyleSplit.Toml

/-- How deep arrays and inline tables nest, and how many parts a key has, at
most. -/
def nestingLimit : Nat := 79

/-- Line ends are line feeds, or carriage returns with line feeds; a carriage
return stands nowhere else. -/
def normalize? : List Char → Option (List Char)
  | [] => some []
  | '\r' :: '\n' :: text => (normalize? text).map ('\n' :: ·)
  | c :: text => if c = '\r' then none else (normalize? text).map (c :: ·)

def skipLines? (inComment : Bool) : List Char → Option (List Char)
  | [] => some []
  | c :: text =>
      if c = '\n' then skipLines? false text
      else if inComment then if isShown c then skipLines? true text else none
      else if isBlank c then skipLines? false text
      else if c = '#' then skipLines? true text
      else some (c :: text)

theorem length_skipLines?_le {inComment : Bool} {text rest : List Char}
    (h : skipLines? inComment text = some rest) : rest.length ≤ text.length := by
  fun_induction skipLines? inComment text with
  | case1 => simp at h; simp [h]
  | case2 _ _ ih => exact Nat.le_succ_of_le (ih h)
  | case3 _ _ _ _ ih => exact Nat.le_succ_of_le (ih h)
  | case4 => simp at h
  | case5 _ _ _ _ _ _ ih => exact Nat.le_succ_of_le (ih h)
  | case6 _ _ _ _ _ ih => exact Nat.le_succ_of_le (ih h)
  | case7 => simp at h; simp [← h]

def takeLineEnd? (inComment : Bool) : List Char → Option (List Char)
  | [] => some []
  | c :: text =>
      if c = '\n' then some text
      else if inComment then if isShown c then takeLineEnd? true text else none
      else if isBlank c then takeLineEnd? false text
      else if c = '#' then takeLineEnd? true text
      else none

def isLiteralChar (c : Char) : Bool :=
  c.isAlphanum || c == '-' || c == '_' || c == '+' || c == '.' || c == ':'

/-- The text of a value that has no marks, and what follows it. A space is part
of it right before a digit: it stands between a date and a time, and nowhere
else does a digit follow a value. -/
def takeLiteral : List Char → List Char × List Char
  | [] => ([], [])
  | c :: text =>
      if isLiteralChar c || (c == ' ' && text.head?.any Char.isDigit) then
        let (literal, rest) := takeLiteral text
        (c :: literal, rest)
      else ([], c :: text)

theorem takeLiteral_append (text : List Char) :
    (takeLiteral text).1 ++ (takeLiteral text).2 = text := by
  fun_induction takeLiteral text <;> simp_all

def literal? (text : List Char) : Option Toml :=
  if text = ['t', 'r', 'u', 'e'] then some (boolean true)
  else if text = ['f', 'a', 'l', 's', 'e'] then some (boolean false)
  else if isMoment text then some (moment (.ofList text))
  else if isFloat text then some (float (.ofList text))
  else (integer? text).map integer

theorem length_tail_lt {c : Char} {text : List Char} (h : text.head? = some c) :
    text.tail.length < text.length := by
  cases text with
  | nil => simp at h
  | cons d text => exact Nat.lt_succ_self _

abbrev Rest (text : List Char) :=
  { rest : List Char // rest.length < text.length }

def Rest.cons {text : List Char} (c : Char) (rest : Rest text) : Rest (c :: text) :=
  ⟨rest.val, Nat.lt_succ_of_lt rest.property⟩

def scalar? (c : Char) (text : List Char) : Option (Toml × Rest (c :: text)) :=
  if isQuote c then
    match h : takeQuoted? (Quoted.Style.ofMark c text) text with
    | none => none
    | some (value, rest) =>
        some (string value, ⟨rest, Nat.lt_succ_of_lt (length_takeQuoted?_lt h)⟩)
  else if isLiteralChar c then
    (literal? (c :: (takeLiteral text).1)).map fun value =>
      (value, ⟨(takeLiteral text).2, by
        have := congrArg List.length (takeLiteral_append text)
        rw [List.length_append] at this
        rw [List.length_cons]
        omega⟩)
  else none

mutual

def value? (depth : Nat) (text : List Char) : Option (Toml × Rest text) :=
  match text, depth with
  | [], _ => none
  | '[' :: _, 0 => none
  | '[' :: text, depth + 1 =>
      (items? depth text).map fun (items, rest) => (array items, rest.cons _)
  | '\x7b' :: _, 0 => none
  | '\x7b' :: text, depth + 1 =>
      have hstart := length_dropBlanks_le text
      match hdrop : dropBlanks text with
      | '\x7d' :: rest =>
          some (table .inline [], ⟨rest, by
            rw [hdrop] at hstart
            simp only [List.length_cons] at *
            omega⟩)
      | start =>
          (pairs? depth [] start).map fun (entries, rest) =>
            (table .inline entries, ⟨rest.val, by
              have := rest.property
              rw [hdrop] at hstart
              simp only [List.length_cons] at *
              omega⟩)
  | c :: text, _ => scalar? c text
termination_by (text.length, 0)
decreasing_by
  · exact Prod.Lex.left _ _ (by simp)
  · rw [hdrop] at hstart
    exact Prod.Lex.left _ _ (by simp only [List.length_cons]; omega)

/-- The items of an array up to its bracket. A comma may follow the last one,
and lines may end anywhere. -/
def items? (depth : Nat) (text : List Char) : Option (List Toml × Rest text) :=
  match hskip : skipLines? false text with
  | none => none
  | some start =>
      have hstart := length_skipLines?_le hskip
      if hclose : start.head? = some ']' then
        some ([], ⟨start.tail, by have := length_tail_lt hclose; omega⟩)
      else
        match value? depth start with
        | none => none
        | some (value, ⟨after, hafter⟩) =>
            match hskip : skipLines? false after with
            | none => none
            | some next =>
                have hnext := length_skipLines?_le hskip
                if hclose : next.head? = some ']' then
                  some ([value], ⟨next.tail, by have := length_tail_lt hclose; omega⟩)
                else if hcomma : next.head? = some ',' then
                  (items? depth next.tail).map fun (items, rest) =>
                    (value :: items, ⟨rest.val, by
                      have := rest.property
                      have := length_tail_lt hcomma
                      omega⟩)
                else none
termination_by (text.length, 1)
decreasing_by
  · by_cases h : start.length = text.length
    · rw [h]
      exact Prod.Lex.right _ (by decide)
    · exact Prod.Lex.left _ _ (by omega)
  · have := length_tail_lt hcomma
    exact Prod.Lex.left _ _ (by omega)

def pairs? (depth : Nat) (entries : Entries) (text : List Char) :
    Option (Entries × Rest text) :=
  match hkey : takeKey? nestingLimit text with
  | some (path, key, '=' :: start) =>
      have hstart := length_takeKey?_lt hkey
      have hblanks := length_dropBlanks_le start
      match value? depth (dropBlanks start) with
      | none => none
      | some (value, ⟨after, hafter⟩) =>
          have hnext := length_dropBlanks_le after
          match Entries.addValue? path key value .headed entries with
          | none => none
          | some (_, entries) =>
              if hclose : (dropBlanks after).head? = some '\x7d' then
                some (entries, ⟨(dropBlanks after).tail, by
                  have := length_tail_lt hclose
                  simp only [List.length_cons] at hstart
                  omega⟩)
              else if hcomma : (dropBlanks after).head? = some ',' then
                (pairs? depth entries (dropBlanks after).tail).map fun (entries, rest) =>
                  (entries, ⟨rest.val, by
                    have := rest.property
                    have := length_tail_lt hcomma
                    simp only [List.length_cons] at hstart
                    omega⟩)
              else none
  | _ => none
termination_by (text.length, 1)
decreasing_by
  · simp only [List.length_cons] at hstart
    exact Prod.Lex.left _ _ (by omega)
  · have := length_tail_lt hcomma
    simp only [List.length_cons] at hstart
    exact Prod.Lex.left _ _ (by omega)

end

structure Document where
  entries : Entries := []
  current : List String := []

def Document.statement? (document : Document) (text : List Char) :
    Option (Document × List Char) :=
  match text with
  | '[' :: '[' :: text =>
      match takeKey? nestingLimit text with
      | some (path, key, ']' :: ']' :: rest) => do
          let (_, entries) ← Entries.openRepeated? path key document.entries
          some (⟨entries, path ++ [key]⟩, rest)
      | _ => none
  | '[' :: text =>
      match takeKey? nestingLimit text with
      | some (path, key, ']' :: rest) => do
          let (_, entries) ← Entries.openTable? path key document.entries
          some (⟨entries, path ++ [key]⟩, rest)
      | _ => none
  | text =>
      match takeKey? nestingLimit text with
      | some (path, key, '=' :: text) => do
          let (value, rest) ← value? nestingLimit (dropBlanks text)
          let (_, entries) ←
            Entries.change? false (Entries.addValue? path key value)
              document.current .headed document.entries
          some (⟨entries, document.current⟩, rest.val)
      | _ => none

/-- Reads statements, each of which ends its line. There are no more of them
than lines. -/
def Document.read? (document : Document) : Nat → List Char → Option Document
  | 0, _ => none
  | lines + 1, text => do
      match ← skipLines? false text with
      | [] => some document
      | start =>
          let (document, rest) ← document.statement? start
          document.read? lines (← takeLineEnd? false rest)

def parse? (text : String) : Option Entries := do
  let text :=
    match text.toList with
    | '\ufeff' :: text => text
    | text => text
  let text ← normalize? text
  let document ← ({} : Document).read? (text.count '\n' + 2) text
  some document.entries

end StyleSplit.Toml
