import StyleSplit.Command.Run

/-! The command line program. -/

namespace StyleSplit

/-- The fault that an error code of the operating system stands for. The code may
be given as its negative. -/
def FileFault.ofCode (code : UInt32) (details : String) : FileFault :=
  match min code.toNat (-code).toNat with
  | 2 => .notFound
  | 17 => .alreadyExists
  | 20 => .notADirectory
  | 21 => .isDirectory
  | 36 => .nameTooLong
  | number => .other details number

def FileFault.ofError : IO.Error → FileFault
  | .noFileOrDirectory _ code details | .alreadyExists _ code details
  | .inappropriateType _ code details | .permissionDenied _ code details
  | .resourceExhausted _ code details | .invalidArgument _ code details =>
      ofCode code details
  | error => .other (toString error) 0

def caught (path : String) (action : IO α) : IO (Except FileFault α) := do
  if path.toList.contains '\x00' then return .error .nulInPath
  else return (← action.toBaseIO).mapError FileFault.ofError

def isOfType (path : String) (type : IO.FS.FileType) : IO Bool := do
  match ← caught path (do (← IO.FS.realPath path).metadata) with
  | .ok metadata => return metadata.type == type
  | .error _ => return false

instance : FileSystem IO where
  read path := do
    let bytes ← caught path (IO.FS.readBinFile path)
    return bytes.bind fun bytes =>
      match String.fromUTF8? bytes with
      | some text => .ok text
      | none => .error .notText
  isFile path := isOfType path .file
  isFolder path := isOfType path .dir
  write path contents := caught path (IO.FS.writeFile path contents)
  createFolder path := caught path (IO.FS.createDir path)

end StyleSplit

open StyleSplit

def main (arguments : List String) : IO UInt32 := do
  let transcript : Transcript ← Transcript.ofArguments arguments
  IO.print transcript.output
  IO.eprint transcript.errors
  return .ofNat transcript.status
