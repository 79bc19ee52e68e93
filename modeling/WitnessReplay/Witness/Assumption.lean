import WitnessReplay.Text.Occurrence
import WitnessReplay.Witness.Linear
import WitnessReplay.Witness.Position
import WitnessReplay.Witness.ValueGrammar

/-!
# Assumptions

The edges of a linear witness state assumptions about the inputs of the program. They are taken
in the order of the execution, and the value in each one's statement is extracted.
-/

namespace WitnessReplay.Witness

/-- Which assumptions count as inputs. -/
inductive ScopeFilter where
  /-- All that have a scope. -/
  | lenient
  /-- Those whose scope names the file they come from. -/
  | strict
deriving DecidableEq, Repr

namespace ScopeFilter

def name : ScopeFilter → String
  | lenient => "lenient"
  | strict => "strict"

def ofText? (s : String) : Option ScopeFilter :=
  if s = lenient.name then some lenient
  else if s = strict.name then some strict
  else none

def unknownMessage (s : String) : String :=
  s!"unknown scope filter '{s}' (expected lenient or strict)"

end ScopeFilter

structure Statement where
  position : Position
  text : String
  scope : String
deriving DecidableEq, Repr

/-- The number that a text spells in decimal digits, with an optional plus sign, if it fits
into 32 bits. -/
def lineNumber? (text : List Char) : Option Nat :=
  let digits := if text.head? = some '+' then text.tail else text
  let n := digits.foldl (fun n d => n * 10 + (d.toNat - '0'.toNat)) 0
  if digits.isEmpty || !digits.all Char.isDigit || UInt32.size ≤ n then none else some n

def Graph.edgePosition (g : Graph) (e : Edge) : Except StructureFault Position :=
  let missing (key : String) : StructureFault :=
    .missingEdgeKey (g.nodeId e.source) (g.nodeId e.target) key
  match e.data.get? "originFileName", e.data.get? "startline" with
  | none, _ => .error (missing "originFileName")
  | some _, none => .error (missing "startline")
  | some file, some line =>
    match lineNumber? (Text.trimChars line.toList) with
    | some n => .ok (.ofPath (Text.trim file) n)
    | none => .error (.invalidLine (g.nodeId e.source) (g.nodeId e.target) line)

def ScopeFilter.keeps (f : ScopeFilter) (s : Statement) : Bool :=
  match f with
  | lenient => true
  | strict => Text.contains s.scope s.position.file

/-- Adds what an edge states to the statements collected before it. An edge without an
assumption, or without a scope for it, is passed over; of any other one the position is read
before the filter is asked. -/
def Graph.collect (g : Graph) (f : ScopeFilter) (collected : List Statement) (e : Edge) :
    Except StructureFault (List Statement) :=
  match e.data.get? "assumption", e.data.get? "assumption.scope" with
  | some text, some scope => do
    let position ← g.edgePosition e
    let s : Statement := { position, text, scope }
    return if f.keeps s then collected ++ [s] else collected
  | _, _ => return collected

def LinearWitness.statements (w : LinearWitness) (f : ScopeFilter) :
    Except WitnessError (List Statement) :=
  (w.pathEdges.foldlM (w.graph.collect f) []).mapError w.graph.error

/-- An assumed input. The value is absent for null. -/
structure Assumption where
  position : Position
  value : Option String
deriving DecidableEq, Repr

def Statement.assumption? (grammar : ValueGrammar) (s : Statement) : Option Assumption :=
  (grammar.value? s.text).map fun value => ⟨s.position, value⟩

/-- The assumptions of a witness for a program in `language`, in the order of the execution. -/
def LinearWitness.assumptions (w : LinearWitness) (language : Language) (f : ScopeFilter) :
    Except WitnessError (List Assumption) :=
  (w.statements f).map fun statements =>
    statements.filterMap (Statement.assumption? (.select language w.producer))

end WitnessReplay.Witness
