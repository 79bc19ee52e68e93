/-!
# Lines

A text is cut behind each line feed. The last line may lack one.
-/

namespace WitnessReplay.Text

def lines : List Char → List (List Char)
  | [] => []
  | c :: r =>
    if c = '\n' then [c] :: lines r
    else
      match lines r with
      | [] => [[c]]
      | line :: rest => (c :: line) :: rest

theorem flatten_lines (s : List Char) : (lines s).flatten = s := by
  induction s with
  | nil => rfl
  | cons c r ih =>
    unfold lines
    split
    · simp [ih]
    · split
      · rename_i h
        rw [h] at ih
        simpa using ih
      · rename_i h
        rw [h] at ih
        simpa using ih

/-- A line without the line feed at its end and a carriage return in front of that. -/
def lineText (line : List Char) : List Char :=
  if line.getLast? = some '\n' then
    if line.dropLast.getLast? = some '\r' then line.dropLast.dropLast else line.dropLast
  else line

def lineTexts (s : String) : List String :=
  (lines s.toList).map fun line => String.ofList (lineText line)

def unlines (ls : List String) : String :=
  String.join (ls.map (· ++ "\n"))

end WitnessReplay.Text
