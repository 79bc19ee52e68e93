import WitnessReplay.Files.FileSystem

/-!
# Directory walks

An entry found on a walk is known by the names that lead to it. Its path is the path of the
root with these names behind it; where it gets too long, a directory can be seen but not be
opened. A walk goes into its root even if that is a link, and behind no other link.
-/

namespace WitnessReplay.Files

/-- An entry found on a walk: its route from where the walk started, its path, and what it
is taken for. -/
structure Visit where
  relative : Route
  path : Path
  kind : Kind

def Visit.child (v : Visit) (name : String) (kind : Kind) : Visit :=
  ⟨v.relative ++ [name], v.path.join ⟨name⟩, kind⟩

def Visit.isSource (v : Visit) (extension : String) : Bool :=
  v.kind = .file && v.path.extension? == some extension

def Visit.isClosed (v : Visit) : Bool :=
  v.kind = .directory && decide (pathLimit ≤ v.path.text.utf8ByteSize)

/-- A walk that ended at a path. -/
structure WalkError where
  path : Path
  cause : FileError
deriving DecidableEq, Repr

def WalkError.message (e : WalkError) : String :=
  s!"IO error for operation on {e.path.text}: {e.cause.message}"

/-- Whether a path ends in a name, so that a link there is seen as such. -/
def Path.endsInName (p : Path) : Bool :=
  match p.parts.getLast?.bind component? with
  | some (.name _) => true
  | _ => false

def Entry.kindAt (e : Entry) (path : Path) : Kind :=
  if path.endsInName then e.status.kind else e.status.targetKind

/-- The visits of an entry at a path and of everything below it, depth first, the entries of
a directory in their order. -/
def Entry.visits (e : Entry) (path : Path) : List Visit :=
  ⟨[], path, e.kindAt path⟩ ::
    e.inside.walked.map fun (r, kind) => ⟨r, path.joinAll r, kind⟩

namespace FileSystem

def kindOf (fs : FileSystem) (p : Path) : Except WalkError Kind :=
  match fs.locate p with
  | .error cause => .error ⟨p, cause⟩
  | .ok s => .ok (s.entry.kindAt p)

def list (fs : FileSystem) (p : Path) : Except WalkError (List (String × Kind)) :=
  match fs.locate p with
  | .error cause => .error ⟨p, cause⟩
  | .ok s =>
    match s.entry with
    | .directory _ inside => .ok inside.listing
    | _ => .error ⟨p, .notADirectory⟩

/-- The entry at a path and everything below it, unless there is a directory that cannot be
opened. -/
def walk (fs : FileSystem) (root : Path) : Except WalkError (List Visit) :=
  match fs.locate root with
  | .error cause => .error ⟨root, cause⟩
  | .ok s =>
    match (s.entry.visits root).find? (·.isClosed) with
    | some v => .error ⟨v.path, .nameTooLong⟩
    | none => .ok (s.entry.visits root)

/-- The files with an extension at or below a path, in the order of a walk. -/
def sources (fs : FileSystem) (root : Path) (extension : String) :
    Except WalkError (List Visit) :=
  (fs.walk root).map (·.filter (·.isSource extension))

end FileSystem

end WitnessReplay.Files
