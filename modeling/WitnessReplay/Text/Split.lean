/-!
# Splitting at a character
-/

namespace WitnessReplay.Text

/-- The parts of a list of characters between the separators; there is one part more than there
are separators. -/
def splitAt (separator : Char) : List Char → List (List Char)
  | [] => [[]]
  | c :: r =>
    if c = separator then [] :: splitAt separator r
    else
      match splitAt separator r with
      | [] => [[c]]
      | part :: parts => (c :: part) :: parts

def split (separator : Char) (s : String) : List String :=
  (splitAt separator s.toList).map String.ofList

end WitnessReplay.Text
