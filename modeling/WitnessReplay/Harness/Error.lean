import WitnessReplay.Files.Walk

/-!
# What can go wrong with a harness
-/

namespace WitnessReplay.Harness

open Files

inductive HarnessError where
  | unreadTemplate (path : Path) (cause : FileError)
  | missingPlaceholder (template placeholder : String)
  | unwritten (path : Path) (cause : FileError)
  | unlistedSources (path : Path) (cause : WalkError)
  | compilerNotStarted (program : String) (cause : FileError)
  | compilationFailed (status stderr : String)
  | notStarted (program : String) (cause : FileError)
deriving DecidableEq, Repr

namespace HarnessError

def message : HarnessError → String
  | unreadTemplate path cause => s!"template {path.text} could not be read: {cause.message}"
  | missingPlaceholder template placeholder =>
    s!"template {template} has no placeholder line '{placeholder}'"
  | unwritten path cause => s!"failed to write {path.text}: {cause.message}"
  | unlistedSources path cause => s!"failed to list harness sources in {path.text}: {cause.message}"
  | compilerNotStarted program cause => s!"failed to start '{program}': {cause.message}"
  | compilationFailed status stderr => s!"harness compilation failed ({status})\n{stderr}"
  | notStarted program cause => s!"failed to run test harness '{program}': {cause.message}"

def isExecution : HarnessError → Bool
  | notStarted _ _ => true
  | _ => false

end HarnessError

end WitnessReplay.Harness
