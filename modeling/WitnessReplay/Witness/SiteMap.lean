import WitnessReplay.OrderedMap
import WitnessReplay.Witness.Position

/-!
# Input sites

The positions at which a program asks for nondeterministic inputs, with the type of each input.
-/

namespace WitnessReplay.Witness

abbrev SiteMap := OrderedMap Position String

def SiteMap.linesIn (sites : SiteMap) (file : String) : List Nat :=
  (sites.keys.filter (·.file = file)).map (·.line)

end WitnessReplay.Witness
