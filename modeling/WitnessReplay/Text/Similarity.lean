/-!
# Similar words

How similar two words are, as the share of characters that they have in common at nearby
places, less those that are in a different order (the measure of Jaro). It is 1 for equal words
and 0 for words without common characters.
-/

namespace WitnessReplay.Text

abbrev Marked := List (Char × Bool)

/-- Marks the first free `c` among the characters at the places from `low` up to `high`. -/
def mark? (c : Char) : (low high : Nat) → Marked → Option Marked
  | _, 0, _ => none
  | _, _, [] => none
  | low, high + 1, (d, taken) :: rest =>
    if low = 0 ∧ c = d ∧ !taken then some ((d, true) :: rest)
    else (mark? c (low - 1) high rest).map ((d, taken) :: ·)

/-- Looks for a partner of each character, `i` being the place of the first one, at a distance
of at most `range`. Gives the characters that have found one, and the marked others. -/
def partners (range : Nat) (i : Nat) (b : Marked) : List Char → List Char × Marked
  | [] => ([], b)
  | c :: rest =>
    match mark? c (i - range) (i + range + 1) b with
    | some b' =>
      let (found, marked) := partners range (i + 1) b' rest
      (c :: found, marked)
    | none => partners range (i + 1) b rest

def similarity (a b : List Char) : Float :=
  let range := max a.length b.length / 2 - 1
  let (found, marked) := partners range 0 (b.map (·, false)) a
  let others := (marked.filter (·.2)).map (·.1)
  let displaced := ((found.zip others).filter fun (c, d) => c ≠ d).length / 2
  let common := found.length
  if a = [] ∧ b = [] then 1
  else if common = 0 then 0
  else
    (common.toFloat / a.length.toFloat + common.toFloat / b.length.toFloat +
      (common - displaced).toFloat / common.toFloat) / 3

def isSimilar (a b : String) : Bool :=
  0.7 < similarity a.toList b.toList

end WitnessReplay.Text
