import WitnessReplay.Text.Split

/-!
# Paths

A path is kept as the text it was built from, because it is shown as such. Two paths count as
the same if they have the same components: repeated slashes, a slash at the end, and points
inside a path do not matter.
-/

namespace WitnessReplay.Files

/-- A path as written. -/
structure Path where
  text : String
deriving DecidableEq, Repr

/-- A component of a path. -/
inductive Component where
  | root
  /-- The point with which a path starts. -/
  | current
  | parent
  | name (name : String)
deriving DecidableEq, Repr

def Component.text : Component → String
  | root => "/"
  | current => "."
  | parent => ".."
  | name text => text

namespace Path

def isAbsolute (p : Path) : Bool :=
  p.text.toList.head? == some '/'

def parts (p : Path) : List String :=
  Text.split '/' p.text

def component? (part : String) : Option Component :=
  if part = "" ∨ part = "." then none
  else if part = ".." then some .parent
  else some (.name part)

/-- What a path starts with apart from the components between its slashes. -/
def start (p : Path) : List Component :=
  if p.isAbsolute then [.root] else if p.parts.head? = some "." then [.current] else []

def components (p : Path) : List Component :=
  p.start ++ p.parts.filterMap component?

def same (p q : Path) : Bool :=
  p.components == q.components

/-- Whether a path is among others, in whatever way it is written. -/
def isAmong (p : Path) (paths : List Path) : Bool :=
  paths.any (·.same p)

def join (p q : Path) : Path :=
  if q.isAbsolute then q
  else if p.text = "" ∨ p.text.toList.getLast? = some '/' then ⟨p.text ++ q.text⟩
  else ⟨p.text ++ "/" ++ q.text⟩

/-- The path reached from `p` when each part is seen from what is in front of it. -/
def joinAll (p : Path) (parts : List String) : Path :=
  parts.foldl (fun q part => q.join ⟨part⟩) p

def ofParts (parts : List String) : Path :=
  joinAll ⟨""⟩ parts

def ofComponents (components : List Component) : Path :=
  ofParts (components.map Component.text)

def parent (p : Path) : Path :=
  ofComponents p.components.dropLast

/-- Whether the components of `p` end with those of `q`. -/
def endsWith (p q : Path) : Bool :=
  q.components.isSuffixOf p.components

def fileName? (p : Path) : Option String :=
  match p.components.getLast? with
  | some (.name n) => some n
  | _ => none

/-- The part of the file name behind its last point; a point at its start does not count. -/
def extension? (p : Path) : Option String :=
  p.fileName?.bind fun name =>
    let reversed := name.toList.reverse
    let ending := reversed.takeWhile (· != '.')
    match reversed.drop ending.length with
    | _ :: _ :: _ => some (String.ofList ending.reverse)
    | _ => none

end Path

end WitnessReplay.Files
