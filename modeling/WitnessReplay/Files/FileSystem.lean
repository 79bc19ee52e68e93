import WitnessReplay.Files.Directory
import WitnessReplay.Files.Error
import WitnessReplay.Files.Path

/-!
# File systems

Everything below the root, as a value, with a current directory. A path that is not
absolute starts there; above the root there is the root itself. A name has at most 255
bytes, a path less than 4096.

A file whose mode forbids it can be neither read nor written. A copy takes over the mode of
what it is copied from. A link stays a link: what is written goes to where it leads.
-/

namespace WitnessReplay.Files

def isTooLong (name : String) : Bool :=
  255 < name.utf8ByteSize

/-- Whether an entry can have a name: it is a component of a path, and not too long. -/
def IsName (name : String) : Prop :=
  Path.component? name = some (.name name) ∧ '/' ∉ name.toList ∧ '\x00' ∉ name.toList ∧
    isTooLong name = false

instance (name : String) : Decidable (IsName name) :=
  inferInstanceAs (Decidable (_ ∧ _ ∧ _ ∧ _))

structure FileSystem where
  root : Directory
  /-- The route of the current directory. -/
  home : Route := []
  isHome : root.get? home = some .directory := by rfl
  sorted : root.Sorted
  named : root.AllNames IsName

/-- Where a path has led: an entry, and those on the way, the nearest first, each with the
name that was taken in it. -/
structure Standing where
  trail : List (String × Entry) := []
  entry : Entry

def Standing.route (s : Standing) : Route :=
  (s.trail.map (·.1)).reverse

def pathLimit : Nat := 4096

def Directory.target? (d : Directory) (name : String) : Option Entry :=
  (d.find? name).filter (·.node?.isSome)

def Status.refusal? : Status → Option FileError
  | .file _ access _ => if access.writable then none else some .permissionDenied
  | .directory _ => some .isADirectory
  | .broken fillable => if fillable then none else some .notFound

/-- Goes on through a part of a path, from an entry that must be a directory. -/
def Standing.step (s : Standing) (part : String) : Except FileError Standing :=
  if s.entry.node? = some .directory then
    match Path.component? part with
    | some (.name name) =>
      if isTooLong name then .error .nameTooLong
      else
        match s.entry.inside.target? name with
        | none => .error .notFound
        | some entry => .ok ⟨(name, s.entry) :: s.trail, entry⟩
    | some _ =>
      match s.trail with
      | [] => .ok s
      | (_, above) :: trail => .ok ⟨trail, above⟩
    | none => .ok s
  else .error .notADirectory

def Standing.follow (s : Standing) (parts : List String) : Except FileError Standing :=
  parts.foldlM Standing.step s

/-- The parts to go through from the root, if a path starts at `home`. -/
def Path.steps (home : Route) (p : Path) : List String :=
  if p.isAbsolute then p.parts else home ++ p.parts

def usableSteps (home : Route) (p : Path) : Except FileError (List String) :=
  if p.text.toList.contains '\x00' then .error .nulInPath
  else if pathLimit ≤ p.text.utf8ByteSize then .error .nameTooLong
  else if p.text = "" then .error .notFound
  else .ok (p.steps home)

namespace FileSystem

def empty : FileSystem where
  root := .empty
  sorted := trivial
  named := trivial

/-- The file system with another current directory, if there is such a directory. -/
def enter (fs : FileSystem) (home : Route) : FileSystem :=
  if h : fs.root.get? home = some .directory then { fs with home, isHome := h } else fs

def status? (fs : FileSystem) (r : Route) : Option Status :=
  fs.root.status? r

def get? (fs : FileSystem) (r : Route) : Option Node :=
  fs.root.get? r

def isLink (fs : FileSystem) (r : Route) : Bool :=
  ((fs.status? r).map (·.linked)).getD false

def access (fs : FileSystem) (r : Route) : Access :=
  ((fs.status? r).map (·.access)).getD {}

/-- Whether an entry may be put at a route of names: in a directory, and not in place of
one. -/
abbrev Admits (fs : FileSystem) (r : Route) : Prop :=
  fs.root.Admits r ∧ ∀ name ∈ r, IsName name

theorem get?_eq_bind (fs : FileSystem) (r : Route) :
    fs.get? r = (fs.status? r).bind Status.node? := rfl

/-- The file system with an entry put at a route, if the route admits it. -/
def place (fs : FileSystem) (r : Route) (s : Status) : FileSystem :=
  if h : fs.Admits r then
    { root := fs.root.place s r
      home := fs.home
      isHome := by
        have hne : fs.home ≠ r := fun heq => h.1.2.2 (heq ▸ fs.isHome)
        rw [Directory.get?, Directory.status?_place h.1, if_neg hne]
        exact fs.isHome
      sorted := Directory.sorted_place fs.sorted s r
      named := Directory.allNames_place fs.named s h.2 }
  else fs

def put (fs : FileSystem) (r : Route) (n : Node) : FileSystem :=
  fs.place r (.ofNode n)

/-- The file system with a file at a route, which stays a link if it is one. -/
def setFile (fs : FileSystem) (r : Route) (access : Access) (content : ByteArray) :
    FileSystem :=
  fs.place r (.file (fs.isLink r) access content)

section Place

variable {fs : FileSystem} {r : Route}

@[simp] theorem home_place (fs : FileSystem) (r : Route) (s : Status) :
    (fs.place r s).home = fs.home := by
  rw [place]
  split <;> rfl

theorem status?_place (h : fs.Admits r) (s : Status) (r' : Route) :
    (fs.place r s).status? r' = if r' = r then some s else fs.status? r' := by
  rw [place, dif_pos h]
  exact Directory.status?_place h.1 s r'

theorem get?_place (h : fs.Admits r) (s : Status) (r' : Route) :
    (fs.place r s).get? r' = if r' = r then s.node? else fs.get? r' := by
  rw [get?_eq_bind, get?_eq_bind, status?_place h]
  split <;> rfl

@[simp] theorem home_put (fs : FileSystem) (r : Route) (n : Node) :
    (fs.put r n).home = fs.home :=
  home_place fs r _

theorem get?_put (h : fs.Admits r) (n : Node) (r' : Route) :
    (fs.put r n).get? r' = if r' = r then some n else fs.get? r' := by
  rw [put, get?_place h, Status.node?_ofNode]

@[simp] theorem home_setFile (fs : FileSystem) (r : Route) (access : Access)
    (content : ByteArray) : (fs.setFile r access content).home = fs.home :=
  home_place fs r _

theorem status?_setFile (h : fs.Admits r) (access : Access) (content : ByteArray)
    (r' : Route) : (fs.setFile r access content).status? r' =
      if r' = r then some (.file (fs.isLink r) access content) else fs.status? r' :=
  status?_place h _ r'

theorem get?_setFile (h : fs.Admits r) (access : Access) (content : ByteArray)
    (r' : Route) : (fs.setFile r access content).get? r' =
      if r' = r then some (.file content) else fs.get? r' :=
  get?_place h _ r'

end Place

def entries (fs : FileSystem) : List (Route × Status) :=
  fs.root.all

def start (fs : FileSystem) : Standing :=
  { entry := .directory false fs.root }

def locateFrom (fs : FileSystem) (home : Route) (p : Path) : Except FileError Standing := do
  fs.start.follow (← usableSteps home p)

def locate (fs : FileSystem) (p : Path) : Except FileError Standing :=
  fs.locateFrom fs.home p

def lookup (fs : FileSystem) (p : Path) : Except FileError Node := do
  match (← fs.locate p).entry.node? with
  | some n => return n
  | none => throw .notFound

def isDirectory (fs : FileSystem) (p : Path) : Bool :=
  match fs.lookup p with
  | .ok .directory => true
  | _ => false

def isFile (fs : FileSystem) (p : Path) : Bool :=
  match fs.lookup p with
  | .ok (.file _) => true
  | _ => false

/-- The file at a path opened for reading: its route, its access and its content.
Directories are refused with `onDirectory`. -/
def openFile (fs : FileSystem) (p : Path) (onDirectory : FileError) :
    Except FileError (Route × Access × ByteArray) := do
  let s ← fs.locate p
  match s.entry with
  | .file _ access content =>
    if access.readable then return (s.route, access, content) else throw .permissionDenied
  | .directory _ _ => throw onDirectory
  | .broken _ => throw .notFound

def read (fs : FileSystem) (p : Path) : Except FileError ByteArray :=
  (fs.openFile p .isADirectory).map (·.2.2)

def readText (fs : FileSystem) (p : Path) : Except FileError String := do
  match String.fromUTF8? (← fs.read p) with
  | some s => return s
  | none => throw .notText

def directoryAt (fs : FileSystem) (steps : List String) :
    Except FileError (Route × Directory) := do
  let s ← fs.start.follow steps
  match s.entry with
  | .directory _ inside => return (s.route, inside)
  | _ => throw .notADirectory

/-- The route at which a file at a path is written, in an existing directory. -/
def fileRoute (fs : FileSystem) (p : Path) : Except FileError Route := do
  let steps ← usableSteps fs.home p
  let (r, inside) ← fs.directoryAt steps.dropLast
  match steps.getLast?.bind Path.component? with
  | some (.name name) =>
    if isTooLong name then throw .nameTooLong
    match (inside.find? name).bind (·.status.refusal?) with
    | some cause => throw cause
    | none => return r ++ [name]
  | _ => throw .isADirectory

def write (fs : FileSystem) (p : Path) (content : ByteArray) :
    Except FileError FileSystem := do
  let r ← fs.fileRoute p
  return fs.setFile r (fs.access r) content

/-- The file system with the file at a path copied to another path. The copy of a file onto
itself is empty, because the target is emptied before anything is read. -/
def copyFile (fs : FileSystem) (source target : Path) : Except FileError FileSystem := do
  let (origin, access, content) ← fs.openFile source .notARegularFile
  let r ← fs.fileRoute target
  return fs.setFile r access (if origin = r then .empty else content)

/-- The file system with a new directory at a path, in an existing one. Slashes at the end of
the path do not count; a path that ends in points exists already, if what is in front of them
is a directory. -/
def makeDirectory (fs : FileSystem) (p : Path) : Except FileError FileSystem := do
  let steps := (← usableSteps fs.home p).filter (· ≠ "")
  let (r, inside) ← fs.directoryAt steps.dropLast
  match steps.getLast?.bind Path.component? with
  | some (.name name) =>
    if isTooLong name then throw .nameTooLong
    if (inside.find? name).isSome then throw .alreadyExists
    return fs.put (r ++ [name]) .directory
  | _ => throw .alreadyExists

end FileSystem

end WitnessReplay.Files
