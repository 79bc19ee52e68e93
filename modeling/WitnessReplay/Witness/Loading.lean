import WitnessReplay.Files.FileSystem
import WitnessReplay.Witness.GraphML

/-!
# Loading a witness from a file
-/

namespace WitnessReplay.Witness

open Files

def Graph.load (fs : FileSystem) (path : Path) : Except WitnessError Graph :=
  match fs.readText path with
  | .ok text => Graph.ofText text path.text
  | .error cause => .error ⟨path.text, .unreadable cause⟩

end WitnessReplay.Witness
