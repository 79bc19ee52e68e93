import WitnessReplay.Files.FileSystem

/-!
# Edits of a file system

Steps that change a file system one after another until one of them fails. What was changed
before a failure stays.
-/

namespace WitnessReplay.Files

/-- A computation that may change the file system and may fail with an `ε`. -/
abbrev Edit (ε α : Type) := ExceptT ε (StateM FileSystem) α

namespace Edit

variable {ε α : Type}

def inspect (f : FileSystem → Except ε α) : Edit ε α :=
  fun fs => (f fs, fs)

/-- A change to the file system, which stays as it is if the change fails. -/
def change (f : FileSystem → Except ε FileSystem) : Edit ε Unit :=
  fun fs =>
    match f fs with
    | .ok fs' => (.ok (), fs')
    | .error cause => (.error cause, fs)

/-- Makes a new directory at a path unless there is one. -/
def ensureDirectory (p : Path) : Edit FileError Unit :=
  fun fs =>
    match fs.makeDirectory p with
    | .ok fs' => (.ok (), fs')
    | .error cause => (if fs.isDirectory p then .ok () else .error cause, fs)

/-- Makes directories at the path of the first `n` components. If what it should lie in is
missing, that is made before. -/
def ensureDirectories (components : List Component) : Nat → Edit FileError Unit
  | 0 => pure ()
  | n + 1 => do
    let p := Path.ofComponents (components.take (n + 1))
    match (← get).makeDirectory p with
    | .error .notFound =>
      ensureDirectories components n
      ensureDirectory p
    | _ => ensureDirectory p

/-- Makes a directory at a path, and all those above it that are missing. -/
def createDirectories (p : Path) : Edit FileError Unit := do
  if p.text = "" then return ()
  match (← get).makeDirectory p with
  | .error .notFound =>
    ensureDirectories p.components (p.components.length - 1)
    ensureDirectory p
  | _ => ensureDirectory p

def writeBelowNew (p : Path) (content : ByteArray) : Edit FileError Unit := do
  createDirectories p.parent
  change (·.write p content)

end Edit

end WitnessReplay.Files
