import WitnessReplay.Files.Error

/-!
# What can be wrong with a witness

A witness may be unreadable, it may not be a graph in the expected format, and the graph may
not describe one execution.
-/

namespace WitnessReplay.Witness

inductive FormatFault where
  | unexpectedRoot (name : String)
  | keyWithoutId
  | noGraph
  | nodeWithoutId
  | duplicateNode (id : String)
  | edgeWithoutEnds
deriving DecidableEq, Repr

def FormatFault.message : FormatFault → String
  | unexpectedRoot name => s!"expected <graphml> root element, found <{name}>"
  | keyWithoutId => "<key> element without id"
  | noGraph => "no <graph> element"
  | nodeWithoutId => "<node> element without id"
  | duplicateNode id => s!"duplicate node id '{id}'"
  | edgeWithoutEnds => "<edge> element without source or target"

inductive StructureFault where
  | entryNodeCount (n : Nat)
  | noViolationNode
  | violationNodeCount (n : Nat)
  | unreachable
  | multiplePaths
  | unsupportedType (type : String)
  | unsupportedLanguage (tag : String)
  | missingEdgeKey (source target key : String)
  | invalidLine (source target value : String)
deriving DecidableEq, Repr

def StructureFault.message : StructureFault → String
  | entryNodeCount n => s!"witness does not have a single entry node (found {n})"
  | noViolationNode => "no support for non-violation witnesses"
  | violationNodeCount n => s!"witness does not have a single violation node (found {n})"
  | unreachable => "no path from the entry node to the violation node"
  | multiplePaths => "witness has multiple execution paths from source to sink"
  | unsupportedType type => s!"no support for witness type '{type}'"
  | unsupportedLanguage tag => s!"no support for source language '{tag}'"
  | missingEdgeKey source target key => s!"assumption edge {source} -> {target} is missing '{key}'"
  | invalidLine source target value =>
    s!"assumption edge {source} -> {target} has non-numeric startline '{value}'"

inductive Fault where
  | unreadable (cause : Files.FileError)
  | notXml
  | format (fault : FormatFault)
  | structural (fault : StructureFault)
deriving DecidableEq, Repr

structure WitnessError where
  origin : String
  fault : Fault
deriving DecidableEq, Repr

namespace WitnessError

/-- The wording of an error; what an XML reader says is not part of it. -/
def message (e : WitnessError) : String :=
  match e.fault with
  | .unreadable cause => s!"failed to read witness {e.origin}: {cause.message}"
  | .notXml => s!"malformed witness {e.origin}: <xml>"
  | .format fault => s!"malformed witness {e.origin}: {fault.message}"
  | .structural fault => s!"invalid witness {e.origin}: {fault.message}"

def isFormat (e : WitnessError) : Bool :=
  match e.fault with
  | .structural _ => false
  | _ => true

end WitnessError

end WitnessReplay.Witness
