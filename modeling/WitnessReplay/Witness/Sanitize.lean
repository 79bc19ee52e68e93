import WitnessReplay.Text.Lines
import WitnessReplay.Text.Occurrence

/-!
# Angle brackets in string arguments

Producers write assumptions such as `s.equals("<a>")` into a witness without escaping the angle
brackets. Before the document is read, one pair of angle brackets in each line is escaped:
between the first `("` and the last `")` behind it, the last closing bracket and the last
opening bracket in front of that.
-/

namespace WitnessReplay.Witness

open Text

def escapeAngles? (line : List Char) : Option (List Char) := do
  let (front, rest) ← splitAtFirst? ['(', '"'] line
  let (argument, back) ← splitAtLast? ['"', ')'] rest
  let (opened, tail) ← splitAtLast? ['>'] argument
  let (head, inner) ← splitAtLast? ['<'] opened
  return front ++ ['(', '"'] ++ head ++ "&lt;".toList ++ inner ++ "&gt;".toList ++ tail ++ ['"',
    ')'] ++ back

def sanitizeLine (line : List Char) : List Char :=
  (escapeAngles? line).getD line

/-- The text of a document with unescaped angle brackets in string arguments escaped. -/
def sanitize (text : String) : String :=
  String.ofList ((lines text.toList).flatMap sanitizeLine)

end WitnessReplay.Witness
