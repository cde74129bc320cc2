/-! Cutting text at a separator. -/

namespace StyleSplit.Text

/-- The parts between the separators; there is always one more than there are
separators. -/
def splitOn (separator : Char) : List Char → List (List Char)
  | [] => [[]]
  | c :: text =>
      let parts := splitOn separator text
      if c = separator then [] :: parts
      else
        match parts with
        | [] => [[c]]
        | part :: parts => (c :: part) :: parts

def afterLast (separator : Char) (text : List Char) : List Char :=
  (text.reverse.takeWhile (· ≠ separator)).reverse

def beforeLast? (separator : Char) (text : List Char) : Option (List Char) :=
  if separator ∈ text then
    some ((text.reverse.dropWhile (· ≠ separator)).drop 1).reverse
  else none

end StyleSplit.Text
