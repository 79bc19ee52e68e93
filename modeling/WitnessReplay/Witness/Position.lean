/-!
# Positions

Witnesses and sources name the same place in different ways. Both are brought to a common form:
the base name of the file without its extension, and the line.
-/

namespace WitnessReplay.Witness

def baseName (path : List Char) : List Char :=
  (path.reverse.takeWhile fun c => c != '/' && c != '\\').reverse

/-- A name without what follows its last point; a point at its start does not count. -/
def stem (name : List Char) : List Char :=
  match name.reverse.dropWhile (· != '.') with
  | _ :: c :: rest => (c :: rest).reverse
  | _ => name

def fileIdentifier (path : String) : String :=
  String.ofList (stem (baseName path.toList))

structure Position where
  file : String
  line : Nat
deriving DecidableEq, Repr

namespace Position

def ofPath (path : String) (line : Nat) : Position :=
  ⟨fileIdentifier path, line⟩

def text (p : Position) : String :=
  s!"{p.file}:{p.line}"

end Position

end WitnessReplay.Witness
