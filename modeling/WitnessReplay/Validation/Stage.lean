/-!
# Stages of a validation
-/

namespace WitnessReplay.Validation

inductive Stage where
  | filePreprocessing
  | witnessPreprocessing
  | siteResolution
  | assumptionExtraction
  | harnessConstruction
  | harnessExecution
deriving DecidableEq, Repr

namespace Stage

def all : List Stage :=
  [filePreprocessing, witnessPreprocessing, siteResolution, assumptionExtraction,
    harnessConstruction, harnessExecution]

def text : Stage → String
  | filePreprocessing => "file preprocessing"
  | witnessPreprocessing => "witness preprocessing"
  | siteResolution => "position type extraction"
  | assumptionExtraction => "assumption extraction"
  | harnessConstruction => "construction of test harness"
  | harnessExecution => "execution of test harness"

def name : Stage → String
  | filePreprocessing => "file_preprocessing"
  | witnessPreprocessing => "witness_preprocessing"
  | siteResolution => "position_type_extraction"
  | assumptionExtraction => "assumption_extraction"
  | harnessConstruction => "harness_construction"
  | harnessExecution => "harness_execution"

def activity : Stage → String
  | filePreprocessing => "Preprocessing benchmark files"
  | witnessPreprocessing => "Checking witness"
  | siteResolution => "Resolving nondeterministic inputs"
  | assumptionExtraction => "Extracting witness assumptions"
  | harnessConstruction => "Building test harness"
  | harnessExecution => "Running test harness"

end Stage

inductive Event where
  | started (stage : Stage)
  | succeeded (stage : Stage)
  | failed (stage : Stage)
deriving DecidableEq, Repr

end WitnessReplay.Validation
