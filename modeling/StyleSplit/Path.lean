import StyleSplit.Text.Split

/-! Paths; their parts are separated by slashes. -/

namespace StyleSplit.Path

/-! The paths of outputs are cut at the last slash. -/

def fileName (path : String) : String :=
  .ofList (Text.afterLast '/' path.toList)

def sibling (path name : String) : String :=
  match Text.beforeLast? '/' path.toList with
  | some folder => .ofList (folder ++ '/' :: name.toList)
  | none => name

/-! Paths of the file system may have parts that lead nowhere: empty ones and
dots. -/

def isIdle (part : List Char) : Bool :=
  part = [] || part = ['.']

def lastName? (path : String) : Option String :=
  match (Text.splitOn '/' path.toList).reverse.dropWhile isIdle with
  | [] => none
  | part :: _ => if part = ['.', '.'] then none else some (.ofList part)

def join (folder name : String) : String :=
  match folder.toList.getLast? with
  | none | some '/' => folder ++ name
  | some _ => folder ++ "/" ++ name

/-- One path for each part that leads somewhere, the longest first. The parts
are given with the last one first; `opening` stands before them all, and `top` is
the path there when none is left. -/
def enclosing (opening : List Char) (top : List String) :
    List (List Char) → List String
  | [] => top
  | part :: parts =>
      if isIdle part then enclosing opening top parts
      else
        .ofList (opening ++ ['/'].intercalate (part :: parts).reverse) ::
          enclosing opening top parts

def ancestry (path : String) : List String :=
  match Text.splitOn '/' path.toList with
  | [] :: first :: parts => enclosing ['/'] ["/"] (first :: parts).reverse
  | ['.'] :: parts => enclosing ['.', '/'] ["."] parts.reverse
  | parts => enclosing [] [] parts.reverse

/-- The directory that a path is in, unless that is the working directory and
not written. -/
def parent? (path : String) : Option String :=
  (ancestry path)[1]?

end StyleSplit.Path
