import WitnessReplay.Text.Occurrence

/-!
# Verdicts

What the output of the harness says about a witness.
-/

namespace WitnessReplay.Harness

inductive Verdict where
  /-- The values of the witness lead to the violation. -/
  | correct
  /-- The program ends normally on the values of the witness. -/
  | spurious
  | unknown
deriving DecidableEq, Repr

namespace Verdict

def name : Verdict → String
  | correct => "CORRECT"
  | spurious => "SPURIOUS"
  | unknown => "UNKNOWN"

def message : Verdict → String
  | correct => "Witness correct"
  | spurious => "Witness spurious"
  | unknown => "Witness could not be validated"

end Verdict

/-- Texts in the output of a harness that decide the verdict. -/
structure Markers where
  correct : String
  spurious : String
deriving DecidableEq, Repr

/-- What a failed assertion prints, and what the driver prints when the program returns. -/
def Markers.harness : Markers where
  correct := "Exception in thread \"main\" java.lang.AssertionError"
  spurious := "polywit: Witness Spurious"

/-- The verdict on an output. What was printed as errors counts, and only if that is empty what
was printed otherwise. A failed assertion decides before a normal end. -/
def classify (markers : Markers) (stdout stderr : String) : Verdict :=
  let output := if stderr.isEmpty then stdout else stderr
  if Text.contains output markers.correct then .correct
  else if Text.contains output markers.spurious then .spurious
  else .unknown

end WitnessReplay.Harness
