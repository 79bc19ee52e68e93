/-!
# Classes of characters as ranges of code points

A class of characters is a list of ranges of code points in increasing order. A range is given by
its first code point and its length.
-/

namespace WitnessReplay.Text

def inRanges (ranges : List (Nat × Nat)) (c : Char) : Bool :=
  ranges.any fun r => r.1 ≤ c.toNat && c.toNat < r.1 + r.2

end WitnessReplay.Text
