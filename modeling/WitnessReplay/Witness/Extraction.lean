import WitnessReplay.Witness.Assumption
import WitnessReplay.Witness.SiteMap

/-!
# Aligning assumptions with input sites

An assumption counts only if the program asks for an input at its position. The values are kept
in the order of the execution, because the harness hands them out in that order.
-/

namespace WitnessReplay.Witness

/-- An input: where it is asked for, its value, and its type. -/
structure Input where
  position : Position
  value : Option String
  type : String
deriving DecidableEq, Repr

def retained (sites : SiteMap) (assumptions : List Assumption) : List Assumption :=
  assumptions.filter fun a => sites.contains a.position

def align (sites : SiteMap) (assumptions : List Assumption) : List (Option String) :=
  (retained sites assumptions).map (·.value)

/-- The input sites of a program, the assumptions of a witness, and the values for the harness. -/
structure Extraction where
  sites : SiteMap
  assumptions : List Assumption
  values : List (Option String)
deriving Repr

namespace Extraction

def aligned (sites : SiteMap) (assumptions : List Assumption) : Extraction :=
  { sites, assumptions, values := align sites assumptions }

def inputs (x : Extraction) : List Input :=
  (retained x.sites x.assumptions).map fun a =>
    ⟨a.position, a.value, (x.sites.get? a.position).getD ""⟩

end Extraction

end WitnessReplay.Witness
