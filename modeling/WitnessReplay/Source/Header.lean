import WitnessReplay.Source.Forest
import WitnessReplay.Text.Scanner

/-!
# The parts of a header

The rules that the headers of source files are made of in both languages. Blanks and comments
may stand between the parts of a header.
-/

namespace WitnessReplay.Source

open Text Text.Scanner

namespace Header

def blanks (L : Lexicon) : Scanner Unit :=
  fun _ s => some ((), L.blanks s)

/-- The word `w`, not followed by a character of a name. -/
def keyword (L : Lexicon) (w : String) : Scanner Unit :=
  fun _ s =>
    if w.toList.isPrefixOf s && !((s.drop w.length).head?.any L.isNameChar) then
      some ((), w.length) else none

def name (L : Lexicon) : Scanner String :=
  fun _ s => (L.word s).map fun n => (Lexicon.bareName (s.take n), n)

def group (L : Lexicon) (d : Delimiter) : Scanner Token :=
  fun p s =>
    match L.token p s with
    | some (t, n) => if t.isGroup d then some (t, n) else none
    | none => none

def nextName (L : Lexicon) : Scanner String := do
  blanks L
  text "."
  blanks L
  name L

def qualifiedName (L : Lexicon) : Scanner (List String) := do
  let first ← name L
  let others ← many (nextName L)
  return first :: others

def wildcard (L : Lexicon) : Scanner Unit := do
  text "."
  blanks L
  text "*"

end Header

end WitnessReplay.Source
