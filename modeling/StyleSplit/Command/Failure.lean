import StyleSplit.Command.FileSystem
import StyleSplit.Options

/-! Why a run of the command stops. -/

namespace StyleSplit

inductive Failure where
  | unreadableConfig (path : String) (fault : FileFault)
  | malformedConfig (path : String)
  | invalidOption (fault : OptionFault)
  | noFileName (input : String)
  | unreadableStylesheet (path : String) (fault : FileFault)
  | unreadableMap (path : String) (fault : FileFault)
  | folderNotMade (path : String) (fault : FileFault)
  | notWritten (path : String) (fault : FileFault)
  | hadErrors (failed total : Nat)
  deriving DecidableEq, Repr

namespace Failure

def message : Failure → String
  | unreadableConfig path fault =>
      "Failed to read config file " ++ path ++ ": " ++ fault.message
  | malformedConfig path => "Failed to parse config file " ++ path ++ ": TOML parse error"
  | invalidOption fault => fault.message
  | noFileName input => "Input " ++ input ++ " has no file name"
  | unreadableStylesheet path _ => "Failed to read stylesheet " ++ path
  | unreadableMap path _ => "Failed to read source map " ++ path
  | folderNotMade path _ => "Failed to create directory " ++ path
  | notWritten path _ => "Failed to write " ++ path
  | hadErrors failed total =>
      toString failed ++ " of " ++ toString total ++ " stylesheet(s) had errors"

def cause? : Failure → Option FileFault
  | unreadableConfig _ fault | unreadableStylesheet _ fault | unreadableMap _ fault
  | folderNotMade _ fault | notWritten _ fault => some fault
  | malformedConfig _ | invalidOption _ | noFileName _ | hadErrors _ _ => none

def toText (failure : Failure) : String :=
  let cause := failure.cause?.elim "" fun fault =>
    "\n\nCaused by:\n    " ++ fault.message
  "Error: " ++ failure.message ++ cause ++ "\n"

end Failure

end StyleSplit
