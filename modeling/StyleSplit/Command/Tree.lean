import StyleSplit.Command.FileSystem
import StyleSplit.Text.Measure

/-! Trees of files and directories, as far as a command can tell: there are no
links, and everything may be read and written. -/

namespace StyleSplit

inductive Base where
  /-- The working directory, or the directory so many levels above it. -/
  | above (levels : Nat)
  | root
  deriving DecidableEq, Repr

structure Place where
  base : Base := .above 0
  /-- The names on the way from the base, the last one first. -/
  names : List String := []
  deriving DecidableEq, Repr

def Place.parent (place : Place) : Place :=
  match place.names, place.base with
  | _ :: names, base => ⟨base, names⟩
  | [], .above levels => ⟨.above (levels + 1), []⟩
  | [], .root => ⟨.root, []⟩

def Place.step (place : Place) (part : List Char) : Place :=
  if Path.isIdle part then place
  else if part = ['.', '.'] then place.parent
  else { place with names := .ofList part :: place.names }

inductive Contents where
  | text (value : String)
  /-- Bytes that are no text. -/
  | binary (bytes : List UInt8)
  deriving DecidableEq, Repr

/-- The files, and the directories apart from the bases. -/
structure Tree where
  files : List (Place × Contents) := []
  folders : List Place := []
  deriving DecidableEq, Repr

def Contents.ofBytes (bytes : List UInt8) : Contents :=
  match String.fromUTF8? ⟨bytes.toArray⟩ with
  | some value => text value
  | none => binary bytes

namespace Tree

def isFolder (tree : Tree) (place : Place) : Bool :=
  place.names.isEmpty || tree.folders.contains place

def file? (tree : Tree) (place : Place) : Option Contents :=
  tree.files.lookup place

def nameLimit : Nat := 255

def pathLimit : Nat := 4095

/-- Every step is from a directory. -/
def walk (tree : Tree) (place : Place) : List (List Char) → Except FileFault Place
  | [] => .ok place
  | part :: parts =>
      if tree.isFolder place then
        if Text.byteLength part ≤ nameLimit then tree.walk (place.step part) parts
        else .error .nameTooLong
      else if (tree.file? place).isSome then .error .notADirectory
      else .error .notFound

def locate (tree : Tree) (path : String) : Except FileFault Place :=
  if path.toList.contains '\x00' then .error .nulInPath
  else if pathLimit < path.utf8ByteSize then .error .nameTooLong
  else
    match Text.splitOn '/' path.toList with
    | [[]] => .error .notFound
    | [] :: parts => tree.walk ⟨.root, []⟩ parts
    | parts => tree.walk {} parts

def read (tree : Tree) (path : String) : Except FileFault String := do
  let place ← tree.locate path
  match tree.file? place with
  | some (.text text) => return text
  | some (.binary _) => throw .notText
  | none => throw (if tree.isFolder place then .isDirectory else .notFound)

def put (tree : Tree) (place : Place) (contents : Contents) : Tree :=
  { tree with files := (place, contents) :: tree.files.filter (·.1 ≠ place) }

/-- A file is not made at a path that ends in a slash. -/
def write (tree : Tree) (path contents : String) : Except FileFault Tree := do
  let name := path.toList.reverse.dropWhile (· = '/')
  let place ← tree.locate (if name.isEmpty then path else .ofList name.reverse)
  if tree.isFolder place || path.toList.getLast? = some '/' then throw .isDirectory
  else return tree.put place (.text contents)

def createFolder (tree : Tree) (path : String) : Except FileFault Tree := do
  let place ← tree.locate path
  if tree.isFolder place || (tree.file? place).isSome then throw .alreadyExists
  else return { tree with folders := place :: tree.folders }

def entries (tree : Tree) : List (String × Contents) :=
  tree.files.filterMap fun (place, contents) =>
    if place.base = .above 0 then some ("/".intercalate place.names.reverse, contents)
    else none

def update (change : Tree → Except FileFault Tree) : StateM Tree (Except FileFault Unit) :=
  modifyGet fun tree =>
    match change tree with
    | .ok tree => (.ok (), tree)
    | .error fault => (.error fault, tree)

def leads (tree : Tree) (path : String) (holds : Place → Bool) : Bool :=
  ((tree.locate path).toOption.map holds).getD false

instance : FileSystem (StateM Tree) where
  read path := do return (← get).read path
  isFile path := do
    let tree ← get
    return tree.leads path fun place => (tree.file? place).isSome
  isFolder path := do
    let tree ← get
    return tree.leads path tree.isFolder
  write path contents := update (·.write path contents)
  createFolder path := update (·.createFolder path)

def withFolder (tree : Tree) (path : String) : Except FileFault Tree :=
  let (result, tree) := (FileSystem.createFolders path : StateM Tree _).run tree
  result.map fun () => tree

def withFile (tree : Tree) (path : String) (contents : Contents) :
    Except FileFault Tree := do
  let tree ← (Path.parent? path).elim (pure tree) tree.withFolder
  return tree.put (← tree.locate path) contents

end Tree

end StyleSplit
