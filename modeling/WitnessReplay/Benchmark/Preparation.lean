import WitnessReplay.Files.Edit
import WitnessReplay.Files.Walk
import WitnessReplay.Source.Parse

/-!
# The merged copy of a program

The directories of a program are copied over one another into the working directory, so that
later ones win.
-/

namespace WitnessReplay.Benchmark

open Files Source

/-- Why a program could not be prepared in the working directory. -/
inductive PreparationError where
  | missingSource (path : Path)
  | uncopied (source target : Path) (cause : FileError)
  | unlisted (path : Path) (cause : WalkError)
  | unchanged (path : Path) (cause : FileError)
  | syntaxError (error : SyntaxError)
  | entryPointCount (n : Nat)
  | packagedEntryPoint (path : Path) (package : String)
deriving DecidableEq, Repr

def PreparationError.message : PreparationError → String
  | missingSource path => s!"source directory {path.text} does not exist"
  | uncopied source target cause =>
    s!"failed to copy {source.text} into {target.text}: {cause.message}"
  | unlisted path cause => s!"failed to list {path.text}: {cause.message}"
  | unchanged path cause => s!"failed to rewrite {path.text}: {cause.message}"
  | syntaxError error => error.message
  | entryPointCount n => s!"expected exactly one top-level main function, found {n}"
  | packagedEntryPoint path package =>
    s!"main function in {path.text} must be declared in the default package (found package {package})"

/-- Copies one entry of a directory to its place below `target`. What a link leads to is
copied as a file. -/
def copyEntry (target : Path) (v : Visit) : Edit PreparationError Unit :=
  let place := target.join ⟨"/".intercalate v.relative⟩
  let copy : Edit FileError Unit :=
    match v.kind with
    | .directory => .createDirectories place
    | _ => .change (·.copyFile v.path place)
  copy.adapt (.uncopied v.path place)

/-- Copies an entry to its place below `target`, and then what a directory holds at that
time; so what the copy itself has put there is copied too. A directory must be open before
it is copied. The number bounds how deep the copy goes. -/
def copyVisit (source target : Path) : Nat → Visit → Edit PreparationError Unit
  | 0, _ => pure ()
  | n + 1, v => do
    let list : Edit PreparationError (List (String × Kind)) :=
      Edit.inspect fun fs => (fs.list v.path).mapError (.unlisted source)
    match v.kind with
    | .directory =>
      let _ ← list
      copyEntry target v
      (← list).forM fun (name, kind) => copyVisit source target n (v.child name kind)
    | _ => copyEntry target v

/-- Copies the contents of a directory into another one over what is there. Every step down
makes the path longer, so no copy gets deeper than paths may be long. -/
def copyTree (source target : Path) : Edit PreparationError Unit := do
  if !(← get).isDirectory source then throw (.missingSource source)
  let kind ← Edit.inspect fun fs => (fs.kindOf source).mapError (.unlisted source)
  copyVisit source target pathLimit ⟨[], source, kind⟩

/-- Copies the contents of directories into another one, one after the other. -/
def copyAll (sources : List Path) (target : Path) : Edit PreparationError Unit :=
  sources.forM (copyTree · target)

end WitnessReplay.Benchmark
