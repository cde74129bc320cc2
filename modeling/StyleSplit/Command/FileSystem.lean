import StyleSplit.Path

/-! What the command needs of a file system. -/

namespace StyleSplit

inductive FileFault where
  | notFound
  | isDirectory
  | notADirectory
  | alreadyExists
  | nameTooLong
  /-- A NUL ends a path for the system, so none stands in one. -/
  | nulInPath
  | notText
  | other (details : String) (code : Nat)
  deriving DecidableEq, Repr

def FileFault.message : FileFault → String
  | notFound => "No such file or directory (os error 2)"
  | alreadyExists => "File exists (os error 17)"
  | notADirectory => "Not a directory (os error 20)"
  | isDirectory => "Is a directory (os error 21)"
  | nameTooLong => "File name too long (os error 36)"
  | nulInPath => "file name contained an unexpected NUL byte"
  | notText => "stream did not contain valid UTF-8"
  | other details code => details ++ " (os error " ++ toString code ++ ")"

class FileSystem (m : Type → Type) where
  read (path : String) : m (Except FileFault String)
  isFile (path : String) : m Bool
  isFolder (path : String) : m Bool
  write (path contents : String) : m (Except FileFault Unit)
  /-- Makes a directory in one that there is. -/
  createFolder (path : String) : m (Except FileFault Unit)

namespace FileSystem

variable {m : Type → Type} [Monad m] [FileSystem m]

def excuse (path : String) : Except FileFault Unit → m (Except FileFault Unit)
  | .ok () => return .ok ()
  | .error fault => do
      if ← isFolder path then return .ok ()
      else return .error fault

/-- Makes the first directory. The others are those around it, innermost first,
which are made when they are missing. -/
def createChain : List String → m (Except FileFault Unit)
  | [] => return .ok ()
  | path :: around => do
      match ← createFolder path with
      | .error .notFound =>
          match ← createChain around with
          | .ok () => excuse path (← createFolder path)
          | .error fault => return .error fault
      | result => excuse path result

def createFolders (path : String) : m (Except FileFault Unit) :=
  createChain (Path.ancestry path)

end FileSystem

end StyleSplit
