import WitnessReplay.CommandLine.Run

/-!
# The program

The current directory is read into a machine, the command line is run on it, and what has
changed is written back. Modes are not looked at, and no tool can be started from here: a
replay goes as far as the compilation of the harness.
-/

open WitnessReplay Files

/-- Adds an entry of a directory on disk, and everything below it. -/
partial def addEntry (fs : FileSystem) (route : Route) (entry : IO.FS.DirEntry) :
    IO FileSystem := do
  let route := route ++ [entry.fileName]
  let linked := (← entry.path.symlinkMetadata).type == .symlink
  if ← entry.path.isDir then
    let mut fs := fs.place route (.directory linked)
    for inner in ← entry.path.readDir do
      fs ← addEntry fs route inner
    return fs
  else if ← entry.path.pathExists then
    return fs.place route (.file linked {} (← IO.FS.readBinFile entry.path))
  else return fs.place route (.broken false)

/-- The current directory, with nothing beside it. -/
def readCurrent : IO FileSystem := do
  let current ← IO.currentDir
  let home := current.components.filter (· ≠ "")
  let mut fs := (List.range (home.length + 1)).foldl (fun fs n =>
    fs.put (home.take n) .directory) FileSystem.empty
  for entry in ← current.readDir do
    fs ← addEntry fs home entry
  return fs.enter home

/-- Writes the entries that were not there before or were different. -/
def writeChanges (before after : FileSystem) : IO Unit := do
  for (route, _) in after.entries do
    let node := after.get? route
    if before.get? route ≠ node then
      let path := "/" ++ "/".intercalate route
      match node with
      | some .directory => IO.FS.createDirAll path
      | some (.file content) => IO.FS.writeBinFile path content
      | none => pure ()

/-- Temporary directories in the current one. A replay changes nothing but its working
directory, so that without it the files are as they were. -/
def temporaryIn (files : FileSystem) : CommandLine.Temporary where
  create := do
    let names := (List.range (files.entries.length + 1)).map fun n => s!"polywit-{n}"
    let isFree (name : String) : Bool := (files.status? (files.home ++ [name])).isNone
    let path : Path := ⟨(names.find? isFree).getD "polywit-"⟩
    (Edit.createDirectories path).adapt (·.message)
    return path
  remove _ _ := files

def main (arguments : List String) : IO UInt32 := do
  let files ← readCurrent
  let machine : Harness.Machine := { files, tools := ∅ }
  let (result, machine) := CommandLine.run (temporaryIn files) arguments machine
  writeChanges files machine.files
  (← IO.getStdout).putStr result.stdout
  (← IO.getStderr).putStr result.stderr
  return result.exitCode.toUInt32
