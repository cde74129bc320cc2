import StyleSplit.Text.Class
import StyleSplit.Text.Replace

/-! What comments mean: `! start:NAME.css` opens a block, `! end:NAME.css`
closes it, and `# sourceMappingURL=NAME.css.map` is a pragma of an earlier
step. -/

namespace StyleSplit

inductive CommentClass where
  | opening (name : String)
  | closing (name : String)
  | stalePragma
  | content
  deriving DecidableEq, Repr

namespace CommentClass

open Text (after?)

/-- A name ends in `.css` and has at least one name character before it. -/
def takeName? (text : List Char) : Option (List Char × List Char) :=
  let stem := text.takeWhile Text.isNameChar
  if stem = [] then none
  else
    (after? ".css".toList (text.dropWhile Text.isNameChar)).map fun rest =>
      (stem ++ ".css".toList, rest)

def dropWhite : List Char → List Char
  | [] => []
  | c :: text => if Text.isWhite c then text else c :: text

/-- The name in a delimiter with the given keyword, which fills the text. -/
def delimiter? (keyword : String) (text : List Char) : Option String := do
  let text ← after? ['!'] text
  let text ← after? (keyword.toList ++ [':']) (dropWhite text)
  let (name, rest) ← takeName? text
  if dropWhite rest = [] then some (.ofList name) else none

/-- Anything may follow the pragma. -/
def isPragma (text : List Char) : Bool :=
  (do
    let text ← after? "# sourceMappingURL=".toList text
    let (_, rest) ← takeName? text
    after? ".map".toList rest).isSome

def ofBody (body : String) : CommentClass :=
  let text := body.toList
  match delimiter? "start" text, delimiter? "end" text with
  | some name, _ => opening name
  | none, some name => closing name
  | none, none => if isPragma text then stalePragma else content

end CommentClass

end StyleSplit
